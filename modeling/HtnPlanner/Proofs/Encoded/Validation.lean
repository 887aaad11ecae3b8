import HtnPlanner.Proofs.Grounding
import HtnPlanner.Proofs.Search.Answers
import HtnPlanner.Proofs.Search.Replay

/-!
When the plan of a search is valid. It is wherever equal tasks never have to be told apart, but a task
that can be worked on may be equal to another that others wait for.
-/

namespace HtnPlanner

theorem GroundProblem.consistent_ofGround {p : GroundProblem} (hp : p.WellFormed) :
    (EncodedProblem.ofGround p).Consistent := by
  intro k o ho
  obtain ⟨t, -, rfl, hresolves⟩ := (mem_operatorsFor hp).mp ho
  exact hresolves.taskOf?

/-- An operator is found among those for its task by its index. -/
theorem GroundProblem.complete_ofGround {p : GroundProblem} (hp : p.WellFormed) :
    (EncodedProblem.ofGround p).Complete := by
  intro k o ho
  cases o with
  | action i =>
      cases hi : (p.relevantActions p.relevantTasks)[i]? with
      | none => simp [EncodedProblem.taskOf?, EncodedProblem.ofGround, hi] at ho
      | some a =>
          have hresolves : p.Resolves a.groundTask (.action i) := .action hi rfl
          obtain rfl := Option.some.inj (hresolves.taskOf?.symm.trans ho)
          exact hresolves.mem_operatorsFor hp (mem_relevantActions.mp (List.mem_of_getElem? hi)).2
  | method i =>
      cases hi : (p.relevantMethods p.relevantTasks)[i]? with
      | none => simp [EncodedProblem.taskOf?, EncodedProblem.ofGround, hi] at ho
      | some m =>
          obtain ⟨-, t, ht, hmt⟩ := mem_relevantMethods.mp (List.mem_of_getElem? hi)
          have hresolves : p.Resolves t (.method i) := .method hi hmt
          obtain rfl := Option.some.inj (hresolves.taskOf?.symm.trans ho)
          exact hresolves.mem_operatorsFor hp ht

/-- The plan that a search finds is rejected only for an operator whose task has to wait, and exactly if
its operators cannot be used on the first of several equal tasks each time. -/
theorem validate_search_plan {domain : Option Definition.Domain} {problem : Option Definition.Problem}
    {P : EncodedProblem} (h : ground domain problem = .ok P) {e : Engine} {exceeded : Nat → Option Limit}
    {fuel : Nat} {plan : Plan} {stats : Statistics}
    (hsearch : e.search P exceeded fuel = some (.success plan, stats)) :
    (P.validate plan = .ok () ↔ ∃ s, P.FirstRun P.initial plan.steps s) ∧
    (P.validate plan = .ok () ∨ ∃ step o, P.validate plan = .error (.notNext step o)) ∧
    ((∀ s, P.Reachable s → ∀ i ∈ s.network.first, ∀ j ∈ s.network.first,
        s.network.tasks[i]? = s.network.tasks[j]? → i = j) → P.validate plan = .ok ()) := by
  obtain ⟨p, hp, rfl⟩ := wellFormed_of_ground h
  have hconsistent := GroundProblem.consistent_ofGround hp
  obtain ⟨s, hrun, hgoal⟩ := (Engine.search_right hsearch).1
  have hsolvable : (EncodedProblem.ofGround p).unsolvable? = none := by
    by_contra hsome
    rw [Engine.search_of_unsolvable (Option.isSome_iff_ne_none.mpr hsome)] at hsearch
    simp at hsearch
  have hreplay := EncodedProblem.validate_of_run hconsistent
    (EncodedProblem.unsolvable?_eq_none.mp hsolvable).1 hrun hgoal
  have hiff : (EncodedProblem.ofGround p).validate plan = .ok () ↔
      ∃ u, (EncodedProblem.ofGround p).FirstRun (EncodedProblem.ofGround p).initial plan.steps u := by
    rcases hreplay with ⟨hok, hfirst⟩ | ⟨⟨n, o, hstuck⟩, hnone⟩
    · exact iff_of_true hok hfirst
    · exact iff_of_false (by simp [hstuck]) hnone
  refine ⟨hiff, hreplay.imp (·.1) (·.1), fun hapart => ?_⟩
  exact hiff.mpr ⟨s, hrun.firstRun hconsistent EncodedProblem.reachable_initial hapart⟩

def planFault? (e : Engine) (domain : Definition.Domain) (problem : Definition.Problem) (fuel : Nat) :
    Option PlanFault :=
  match ground domain problem with
  | .error _ => none
  | .ok P => match e.search P (fun _ => none) fuel with
    | some (.success plan, _) => match P.validate plan with
      | .error fault => some fault
      | .ok _ => none
    | _ => none

theorem exists_of_planFault? {e : Engine} {domain : Definition.Domain} {problem : Definition.Problem} {fuel : Nat}
    {fault : PlanFault} (h : planFault? e domain problem fuel = some fault) :
    ∃ P plan stats, ground domain problem = .ok P ∧
      e.search P (fun _ => none) fuel = some (.success plan, stats) ∧ P.validate plan = .error fault := by
  rw [planFault?] at h
  split at h
  · simp at h
  next P hP =>
    split at h
    · next plan stats hplan =>
        split at h
        · next fault' hfault =>
            obtain rfl := Option.some.inj h
            exact ⟨P, plan, stats, hP, hplan, hfault⟩
        · simp at h
    · simp at h

def refillDomain : Definition.Domain where
  name := "refill"
  predicates := [⟨"full", []⟩]
  actions := [
    { name := "use", preconditions := [.atom ⟨"full", []⟩], effects := [.delete ⟨"full", []⟩] },
    { name := "refill", effects := [.add ⟨"full", []⟩] }]

/-- To use it and, in any order with that, to use it and then refill it. -/
def refillProblem : Definition.Problem where
  name := "use twice"
  domain := "refill"
  init := [⟨"full", []⟩]
  htn := {
    subtasks := [⟨some "any", ⟨"use", []⟩⟩, ⟨some "first", ⟨"use", []⟩⟩, ⟨some "then", ⟨"refill", []⟩⟩]
    ordering := [("first", "then")] }

/-- Refilling waits for the second use, but the replay takes the first. -/
theorem search_plan_rejected :
    (∃ P plan stats, ground refillDomain refillProblem = .ok P ∧
      Engine.depthFirst.search P (fun _ => none) 5 = some (.success plan, stats) ∧
      P.validate plan = .error (.notNext 1 (.action 1))) ∧
    ∃ P plan stats, ground refillDomain refillProblem = .ok P ∧
      Engine.breadthFirst.search P (fun _ => none) 5 = some (.success plan, stats) ∧
      P.validate plan = .error (.notNext 1 (.action 1)) :=
  ⟨exists_of_planFault? (by decide +kernel), exists_of_planFault? (by decide +kernel)⟩

theorem validate_search_plan_refill :
    ∃ P plan stats, ground refillDomain refillProblem = .ok P ∧
      Engine.depthFirst.search P (fun _ => none) 5 = some (.success plan, stats) ∧
      ¬ ∃ s, P.FirstRun P.initial plan.steps s := by
  obtain ⟨P, plan, stats, hground, hsearch, hfault⟩ :
      ∃ P plan stats, ground refillDomain refillProblem = .ok P ∧
        Engine.depthFirst.search P (fun _ => none) 5 = some (.success plan, stats) ∧
        P.validate plan = .error (.notNext 1 (.action 1)) := exists_of_planFault? (by decide +kernel)
  refine ⟨P, plan, stats, hground, hsearch, fun hfirst => ?_⟩
  have hok := (validate_search_plan hground hsearch).1.mpr hfirst
  simp [hfault] at hok

/-- A plan is valid exactly if all initial tasks are achievable and its operators, each used on the first
task that it is for, lead by successors to where no task is left and the goal holds. -/
theorem validate_iff_run {domain : Option Definition.Domain} {problem : Option Definition.Problem}
    {P : EncodedProblem} (h : ground domain problem = .ok P) (plan : Plan) :
    P.validate plan = .ok () ↔ P.isSolvable = true ∧
      ∃ s, P.Run P.initial plan.steps s ∧ P.FirstRun P.initial plan.steps s ∧
        s.network.tasks = [] ∧ P.goal.holds s.state = true := by
  obtain ⟨p, hp, rfl⟩ := wellFormed_of_ground h
  constructor
  · intro hvalid
    obtain ⟨hsolvable, s, hreplay, hgoal⟩ := EncodedProblem.validate_eq_ok.mp hvalid
    obtain ⟨hrun, hfirst⟩ := EncodedProblem.run_of_replay (GroundProblem.complete_ofGround hp) hreplay
    rw [EncodedProblem.isGoal, Bool.and_eq_true, TaskNetwork.isEmpty, List.isEmpty_iff] at hgoal
    exact ⟨hsolvable, s, hrun, hfirst, hgoal⟩
  · rintro ⟨hsolvable, s, hrun, hfirst, hempty, hholds⟩
    have hgoal : (EncodedProblem.ofGround p).isGoal s = true := by
      rw [EncodedProblem.isGoal, TaskNetwork.isEmpty, hempty, hholds]
      rfl
    rcases EncodedProblem.validate_of_run (GroundProblem.consistent_ofGround hp) hsolvable hrun hgoal with
      ⟨hok, -⟩ | ⟨-, hnone⟩
    · exact hok
    · exact absurd ⟨s, hfirst⟩ hnone

def lampPlan : Plan := ⟨[.method 0, .method 3, .action 4, .action 0, .action 1]⟩

theorem exists_ground_of_any {domain : Option Definition.Domain} {problem : Option Definition.Problem}
    {Q : EncodedProblem → Prop} [DecidablePred Q] (h : (ground domain problem).toOption.any Q = true) :
    ∃ P, ground domain problem = .ok P ∧ Q P :=
  exists_ok_of_any h

theorem validate_iff_run_lamp : ∃ P, ground lampDomain lampProblem = .ok P ∧ P.validate lampPlan = .ok () ∧
    P.isSolvable = true ∧ ∃ s, P.Run P.initial lampPlan.steps s ∧ s.network.tasks = [] := by
  obtain ⟨P, hP, hvalid⟩ : ∃ P, ground lampDomain lampProblem = .ok P ∧ P.validate lampPlan = .ok () :=
    exists_ground_of_any (by decide +kernel)
  obtain ⟨hsolvable, s, hrun, -, hempty, -⟩ := (validate_iff_run hP lampPlan).mp hvalid
  exact ⟨P, hP, hvalid, hsolvable, s, hrun, hempty⟩

end HtnPlanner
