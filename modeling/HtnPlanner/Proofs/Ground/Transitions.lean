import HtnPlanner.Proofs.Ground.Invariance

/-!
Replacing the known values in the ground actions, in the goal and in the methods changes nothing in the states
to which the actions lead.
-/

namespace HtnPlanner

open Relation

variable {S T : Set Fact} {fixed : Fact → Option Bool} {actions : List Schema.Action} {x y : Schema.Action} {f : Fact}

namespace Schema

/-- One of the actions is applied. -/
def ActionStep (actions : List Action) (S T : Set Fact) : Prop :=
  ∃ x ∈ actions, x.precondition.Holds [] S ∧ T = x.result S

theorem ActionStep.effectStep (h : ActionStep actions S T) : EffectStep actions S T := by
  obtain ⟨x, hx, -, hT⟩ := h
  exact ⟨x, hx, hT⟩

namespace Action

/-! ### One action -/

/-- The same operator for the same task, with the same behaviour in the state. -/
structure EquivalentIn (S : Set Fact) (x y : Action) : Prop where
  name : y.name = x.name
  task : y.task = x.task
  args : y.args = x.args
  applicable : y.precondition.Holds [] S ↔ x.precondition.Holds [] S
  result : y.result S = x.result S

theorem mem_effect_simplify? (h : x.simplify? fixed = some y) (hread : x.effect.literals? = some x.effectLiterals)
    (positive : Bool) : (f ∈ if positive then y.adds [] else y.deletes []) ↔
      (f ∈ if positive then x.adds [] else x.deletes []) ∧ fixed f = none := by
  obtain ⟨hread', hfilter⟩ := effectLiterals_simplify? h
  rw [← mem_effectLiterals hread', ← mem_effectLiterals hread, hfilter, List.mem_filter, Option.isNone_iff_eq_none]

theorem result_simplify? (h : x.simplify? fixed = some y) (hread : x.effect.literals? = some x.effectLiterals)
    (hkeeps : Keeps fixed (x.adds []) (x.deletes [])) (hS : Expr.Agrees fixed S) : y.result S = x.result S := by
  have hadds : y.adds [] = {f | f ∈ x.adds [] ∧ fixed f = none} :=
    Set.ext fun _ => mem_effect_simplify? h hread true
  have hdeletes : y.deletes [] = {f | f ∈ x.deletes [] ∧ fixed f = none} :=
    Set.ext fun _ => mem_effect_simplify? h hread false
  rw [result, hadds, hdeletes, hkeeps.apply_eq hS, result]

theorem equivalentIn_simplify? (h : x.simplify? fixed = some y)
    (hread : x.effect.literals? = some x.effectLiterals) (hkeeps : Keeps fixed (x.adds []) (x.deletes []))
    (hS : Expr.Agrees fixed S) : x.EquivalentIn S y := by
  have hresult := result_simplify? h hread hkeeps hS
  obtain ⟨-, rfl⟩ := simplify?_eq_some.mp h
  exact ⟨rfl, rfl, rfl, Expr.holds_assign hS _, hresult⟩

theorem not_holds_of_simplify? (h : x.simplify? fixed = none) (hS : Expr.Agrees fixed S) :
    ¬ x.precondition.Holds [] S := by
  intro hholds
  have hassign := (Expr.holds_assign hS x.precondition).mpr hholds
  have hbottom : x.precondition.assign fixed = .bottom := by
    by_contra hne
    exact Option.some_ne_none _ ((simplify?_eq_some.mpr ⟨hne, rfl⟩).symm.trans h)
  rw [hbottom] at hassign
  exact hassign

end Action

end Schema

namespace LiftedProblem

variable {p : LiftedProblem}

/-! ### All actions -/

theorem agrees_of_actionSteps (hp : p.WellFormed)
    (h : ReflTransGen (Schema.ActionStep p.groundActions) {f | f ∈ p.init} S) :
    Expr.Agrees p.fixedValue S ∧ Expr.Agrees p.factInertia.fixedValue S := by
  have hinstances := instantiates_groundActions hp
  have hsteps := ReflTransGen.mono (fun _ _ hstep => hstep.effectStep) _ _ h
  exact ⟨Schema.agrees_of_effectSteps hsteps (fun x hx => (hinstances x hx).keeps hp) (p.agrees_init p.init),
    Schema.agrees_of_effectSteps hsteps (keeps_factInertia hp hinstances) (FactInertia.agrees_init _ _)⟩

theorem equivalentIn_of_simplify? (hp : p.WellFormed) (hS : Expr.Agrees p.factInertia.fixedValue S)
    (hx : x ∈ p.groundActions) (h : x.simplify? p.factInertia.fixedValue = some y) : x.EquivalentIn S y := by
  have hinstances := instantiates_groundActions hp
  exact Schema.Action.equivalentIn_simplify? h ((hinstances x hx).literals?_effect hp)
    (keeps_factInertia hp hinstances x hx) hS

theorem exists_simplified (hp : p.WellFormed) (hS : Expr.Agrees p.factInertia.fixedValue S)
    (hx : x ∈ p.groundActions) (hholds : x.precondition.Holds [] S) :
    ∃ y ∈ (GroundProblem.ofLifted p).actions, x.EquivalentIn S y := by
  cases h : x.simplify? p.factInertia.fixedValue with
  | none => exact absurd hholds (Schema.Action.not_holds_of_simplify? h hS)
  | some y => exact ⟨y, mem_simplifyActions.mpr ⟨x, hx, h⟩, equivalentIn_of_simplify? hp hS hx h⟩

theorem exists_unsimplified (hp : p.WellFormed) (hS : Expr.Agrees p.factInertia.fixedValue S)
    (hy : y ∈ (GroundProblem.ofLifted p).actions) : ∃ x ∈ p.groundActions, x.EquivalentIn S y := by
  obtain ⟨x, hx, h⟩ := mem_simplifyActions.mp hy
  exact ⟨x, hx, equivalentIn_of_simplify? hp hS hx h⟩

theorem actionStep_iff_simplified (hp : p.WellFormed) (hS : Expr.Agrees p.factInertia.fixedValue S) :
    Schema.ActionStep p.groundActions S T ↔ Schema.ActionStep (GroundProblem.ofLifted p).actions S T := by
  constructor
  · rintro ⟨x, hx, hholds, rfl⟩
    obtain ⟨y, hy, hxy⟩ := exists_simplified hp hS hx hholds
    exact ⟨y, hy, hxy.applicable.mpr hholds, hxy.result.symm⟩
  · rintro ⟨y, hy, hholds, rfl⟩
    obtain ⟨x, hx, hxy⟩ := exists_unsimplified hp hS hy
    exact ⟨x, hx, hxy.applicable.mp hholds, hxy.result⟩

/-- Both sets of actions lead to the same states. -/
theorem actionSteps_iff_simplified (hp : p.WellFormed) :
    ReflTransGen (Schema.ActionStep p.groundActions) {f | f ∈ p.init} S ↔
      ReflTransGen (Schema.ActionStep (GroundProblem.ofLifted p).actions) {f | f ∈ p.init} S := by
  constructor
  · intro h
    induction h with
    | refl => exact .refl
    | tail hsteps hstep ih =>
        exact ih.tail ((actionStep_iff_simplified hp (agrees_of_actionSteps hp hsteps).2).mp hstep)
  · intro h
    induction h with
    | refl => exact .refl
    | tail _ hstep ih => exact ih.tail ((actionStep_iff_simplified hp (agrees_of_actionSteps hp ih).2).mpr hstep)

/-- The simplified actions lead to the same states as the ground ones, and there they are those of them that are
not ruled out, and nothing that is asked of the state has another answer. -/
theorem simplified_transitions {domain : Option Definition.Domain} {problem : Option Definition.Problem}
    {L : LiftedProblem} (h : LiftedProblem.ofDefinitions domain problem = .ok L) :
    (∀ S, ReflTransGen (Schema.ActionStep (GroundProblem.ofLifted L).actions) {f | f ∈ L.init} S ↔
      ReflTransGen (Schema.ActionStep L.groundActions) {f | f ∈ L.init} S) ∧
    ∀ S, ReflTransGen (Schema.ActionStep L.groundActions) {f | f ∈ L.init} S →
      (∀ x ∈ L.groundActions, x.precondition.Holds [] S →
        ∃ y ∈ (GroundProblem.ofLifted L).actions, x.EquivalentIn S y) ∧
      (∀ y ∈ (GroundProblem.ofLifted L).actions, ∃ x ∈ L.groundActions, x.EquivalentIn S y) ∧
      (∀ x ∈ L.groundActions, x.simplify? (GroundProblem.ofLifted L).inertia.fixedValue = none →
        ¬ x.precondition.Holds [] S) ∧
      ((GroundProblem.ofLifted L).goal.Holds [] S ↔ L.groundGoal.Holds [] S) ∧
      (∀ m ∈ L.methods, ∀ v ∈ m.precondition.variants, ∀ b, L.Accepts m.parameters b →
        (((v.subst b).assign (GroundProblem.ofLifted L).inertia.fixedValue).Holds [] S ↔
          (v.subst b).Holds [] S)) ∧
      ∀ m' ∈ (GroundProblem.ofLifted L).methods,
        ∃ m v b, L.GroundsMethod (GroundProblem.ofLifted L).inertia.fixedValue m v b m' := by
  have hL := LiftedProblem.wellFormed_of_ofDefinitions h
  refine ⟨fun S => (actionSteps_iff_simplified hL).symm, fun S hS => ?_⟩
  have hfixed : Expr.Agrees L.factInertia.fixedValue S := (agrees_of_actionSteps hL hS).2
  refine ⟨fun x hx => exists_simplified hL hfixed hx, fun y hy => exists_unsimplified hL hfixed hy,
    fun x _ hdropped => Schema.Action.not_holds_of_simplify? hdropped hfixed, Expr.holds_assign hfixed _,
    fun m _ v _ b _ => Expr.holds_assign hfixed _, fun m' hm' => (exists_groundsMethod hL (prune_subset hm')).2⟩

/-- What is not hinged is never opened, so there is no way through it. -/
theorem simplified_transitions_door : ∃ L, LiftedProblem.ofDefinitions doorDomain doorProblem = .ok L ∧
    ∃ x ∈ L.groundActions, x.simplify? (GroundProblem.ofLifted L).inertia.fixedValue = none ∧
      ∀ S, ReflTransGen (Schema.ActionStep L.groundActions) {f | f ∈ L.init} S → ¬ x.precondition.Holds [] S := by
  obtain ⟨L, hL, x, hx, hdropped⟩ : ∃ L, LiftedProblem.ofDefinitions doorDomain doorProblem = .ok L ∧
      ∃ x ∈ L.groundActions, x.simplify? (GroundProblem.ofLifted L).inertia.fixedValue = none :=
    exists_ok_of_any (by decide +kernel)
  exact ⟨L, hL, x, hx, hdropped, fun S hS => ((simplified_transitions hL).2 S hS).2.2.1 x hx hdropped⟩

end LiftedProblem

end HtnPlanner
