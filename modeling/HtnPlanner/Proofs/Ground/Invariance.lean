import HtnPlanner.Proofs.Ground.Inertia
import HtnPlanner.Proofs.Grounding
import Mathlib.Logic.Relation

/-!
A value that the inertia of a predicate or of a fact fixes is the value of the fact in every state to which
instances of the actions lead, even where their preconditions are ignored.
-/

namespace HtnPlanner

open Relation

variable {S T : Set Fact} {value : Fact → Option Bool} {actions : List Schema.Action} {x : Schema.Action}

/-- One of the actions takes effect, whether or not its precondition is true. -/
def Schema.EffectStep (actions : List Schema.Action) (S T : Set Fact) : Prop := ∃ x ∈ actions, T = x.result S

theorem Schema.EffectStep.agrees (h : Schema.EffectStep actions S T)
    (hkeeps : ∀ x ∈ actions, Keeps value (x.adds []) (x.deletes [])) (hS : Expr.Agrees value S) :
    Expr.Agrees value T := by
  obtain ⟨x, hx, rfl⟩ := h
  exact (hkeeps x hx).agrees hS

theorem Schema.agrees_of_effectSteps (h : ReflTransGen (Schema.EffectStep actions) S T)
    (hkeeps : ∀ x ∈ actions, Keeps value (x.adds []) (x.deletes [])) (hS : Expr.Agrees value S) :
    Expr.Agrees value T := by
  induction h with
  | refl => exact hS
  | tail _ hstep ih => exact hstep.agrees hkeeps ih

namespace LiftedProblem

/-- Fixed values are right wherever instances of the actions lead, and the instances fix all the values that the
actions do. A value is left open only where some effect is opposed to the initial one. -/
theorem fixed_values_invariant {domain : Option Definition.Domain} {problem : Option Definition.Problem}
    {L : LiftedProblem} (h : LiftedProblem.ofDefinitions domain problem = .ok L) {init : List Fact}
    {instances : List Schema.Action} (hinstances : ∀ x ∈ instances, L.Instantiates x) :
    (∀ S, ReflTransGen (Schema.EffectStep instances) {f | f ∈ init} S →
      (∀ f v, L.inertia.fixedValue init f = some v → (f ∈ S ↔ v = true)) ∧
        ∀ f v, (FactInertia.ofActions instances init).fixedValue f = some v → (f ∈ S ↔ v = true)) ∧
    (∀ f v, L.inertia.fixedValue init f = some v → (FactInertia.ofActions instances init).fixedValue f = some v) ∧
    (∀ f, L.inertia.fixedValue init f = none → ∃ a ∈ L.actions, ∃ y : Atom, y.predicate = f.predicate ∧
      (if !init.contains f then Expr.atom y else .neg (.atom y)) ∈ a.effect.conjuncts) ∧
    ∀ f, (FactInertia.ofActions instances init).fixedValue f = none →
      ∃ x ∈ instances, f ∈ if !init.contains f then x.adds [] else x.deletes [] := by
  have hL := LiftedProblem.wellFormed_of_ofDefinitions h
  refine ⟨fun S hS => ⟨?_, ?_⟩, fun f v => factInertia_refines hL hinstances,
    fun f => exists_of_fixedValue_eq_none hL, fun f hf => ?_⟩
  · exact Schema.agrees_of_effectSteps hS (fun x hx => (hinstances x hx).keeps hL) (L.agrees_init init)
  · exact Schema.agrees_of_effectSteps hS (keeps_factInertia hL hinstances) (FactInertia.agrees_init _ _)
  · obtain ⟨x, hx, heffect⟩ := FactInertia.exists_of_fixedValue_eq_none hf
    exact ⟨x, hx, (Schema.Action.mem_effectLiterals ((hinstances x hx).literals?_effect hL)).mp heffect⟩

/-- Whether a door is hinged stays as it is, that it is sealed can only be lost, that it was used can only be
gained, and a hinged one is opened and closed. -/
def doorDomain : Definition.Domain where
  name := "doors"
  types := [⟨"object", .object⟩, ⟨"door", .object⟩]
  predicates := [⟨"hinged", [⟨"?d", .exactly "door"⟩]⟩, ⟨"sealed", [⟨"?d", .exactly "door"⟩]⟩,
    ⟨"used", [⟨"?d", .exactly "door"⟩]⟩, ⟨"open", [⟨"?d", .exactly "door"⟩]⟩]
  actions := [
    { name := "push", parameters := [⟨"?d", .exactly "door"⟩], preconditions := [.atom ⟨"hinged", [.var "?d"]⟩],
      effects := [.delete ⟨"sealed", [.var "?d"]⟩, .add ⟨"used", [.var "?d"]⟩, .add ⟨"open", [.var "?d"]⟩] },
    { name := "pull", parameters := [⟨"?d", .exactly "door"⟩], preconditions := [.atom ⟨"hinged", [.var "?d"]⟩],
      effects := [.delete ⟨"open", [.var "?d"]⟩] },
    { name := "pass", parameters := [⟨"?d", .exactly "door"⟩], preconditions := [.atom ⟨"open", [.var "?d"]⟩] }]

def doorProblem : Definition.Problem where
  name := "through the gate"
  domain := "doors"
  objects := [⟨"gate", .exactly "door"⟩, ⟨"wall", .exactly "door"⟩]
  init := [⟨"hinged", ["gate"]⟩, ⟨"sealed", ["gate"]⟩]
  htn := { subtasks := [{ task := ⟨"pass", [.name "gate"]⟩ }] }

theorem fixed_values_invariant_door : ∃ L, LiftedProblem.ofDefinitions doorDomain doorProblem = .ok L ∧
    L.inertia.classes = [.static, .positive, .negative, .fluent] ∧
    (∀ x ∈ L.groundActions, L.Instantiates x) ∧
    ∀ S, ReflTransGen (Schema.EffectStep L.groundActions) {f | f ∈ L.init} S →
      ∀ f v, L.inertia.fixedValue L.init f = some v → (f ∈ S ↔ v = true) := by
  obtain ⟨L, hL, hclasses⟩ : ∃ L, LiftedProblem.ofDefinitions doorDomain doorProblem = .ok L ∧
      L.inertia.classes = [.static, .positive, .negative, .fluent] := exists_ok_of_any (by decide +kernel)
  have hinstances := instantiates_groundActions (wellFormed_of_ofDefinitions hL)
  exact ⟨L, hL, hclasses, hinstances, fun S hS => ((fixed_values_invariant hL hinstances).1 S hS).1⟩

end LiftedProblem

end HtnPlanner
