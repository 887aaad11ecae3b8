import HtnPlanner.Encoded.OfGround
import HtnPlanner.Proofs.Ground.Prune
import HtnPlanner.Proofs.Ground.Simulation

/-!
The relevant tasks are closed under decomposition, and all facts of what can be done for them are kept.
-/

namespace HtnPlanner

namespace GroundProblem

/-- What the encoding relies on. -/
structure WellFormed (p : GroundProblem) : Prop where
  actionTask : ∀ a ∈ p.actions, p.symbols.isPrimitive a.groundTask.symbol = true
  methodTask : ∀ m ∈ p.methods, ∃ t, m.groundTask? = some t ∧ p.symbols.isPrimitive t.symbol = false
  subtasks : ∀ m ∈ p.methods, m.subtasks.length = m.network.tasks.length
  methodOrder : ∀ m ∈ p.methods, ∀ q ∈ m.network.order,
    q.1 < m.network.tasks.length ∧ q.2 < m.network.tasks.length
  initialOrder : ∀ q ∈ p.initialOrder, q.1 < p.initialTasks.length ∧ q.2 < p.initialTasks.length
  resolved : p.resolved.length = p.initialTasks.length
  goal : p.goal.IsGround

theorem wellFormed_ofLifted {p : LiftedProblem} (hp : p.WellFormed) : (ofLifted p).WellFormed := by
  have hmethod := fun m (hm : m ∈ (ofLifted p).methods) => LiftedProblem.exists_groundsMethod hp (prune_subset hm)
  refine ⟨fun a ha => ?_, fun m hm => ?_, fun m hm => ?_, fun m hm => ?_, ?_, ?_, ?_⟩
  · obtain ⟨a₀, b, pre, hground⟩ := LiftedProblem.exists_isGroundAction hp ha
    have htask : a.groundTask.symbol = a₀.task := congrArg GroundTask.symbol hground.task
    rw [htask]
    exact (hp.actions a₀ hground.known).primitive
  · exact (hmethod m hm).1
  · obtain ⟨-, m₀, v, b, hground⟩ := hmethod m hm
    exact (hground.subtasks hp).2.1
  · obtain ⟨-, m₀, v, b, hground⟩ := hmethod m hm
    exact (hground.subtasks hp).2.2.2
  · show ∀ q ∈ p.network.order, q.1 < p.initialTasks.length ∧ q.2 < p.initialTasks.length
    rw [(LiftedProblem.initialTasks_spec hp).1]
    exact hp.network.order
  · exact List.length_map _
  · have hgoal := Expr.Fits.isGround_assign (b := []) hp.goal p.fixedValue
    rw [Expr.subst_nil] at hgoal
    exact hgoal.assign _

/-- Conditions and effects are literals, and tasks have constants for all their arguments. -/
structure Legible (p : GroundProblem) : Prop where
  arity : ∀ a ∈ p.actions, a.args.length = a.parameters.length
  precondition : ∀ a ∈ p.actions, a.precondition.literals? = some a.precondition.literals
  effect : ∀ a ∈ p.actions, a.effect.literals? = some a.effectLiterals
  condition : ∀ m ∈ p.methods, m.precondition.literals? = some m.precondition.literals
  subtasks : ∀ m ∈ p.methods, m.network.groundTasks? = some m.subtasks
  tasks : ∀ m ∈ p.methods, ∀ t ∈ m.subtasks, t.Fits p.symbols
  initialTasks : ∀ t ∈ p.initialTasks, t.Fits p.symbols
  actionArgs : ∀ a ∈ p.actions, ∀ c ∈ a.args, c < p.symbols.constants.size
  methodArgs : ∀ m ∈ p.methods, ∀ c ∈ m.args, c < p.symbols.constants.size

theorem legible_ofLifted {p : LiftedProblem} (hp : p.WellFormed) : (ofLifted p).Legible := by
  have haction : ∀ a ∈ (ofLifted p).actions, ∃ a₀ ∈ p.actions, p.Accepts a₀.parameters a.args ∧
      a.parameters = a₀.parameters ∧ a.precondition.IsClause ∧ a.precondition.IsGround := by
    intro a ha
    obtain ⟨a', ha', hsimplify⟩ := mem_simplifyActions.mp ha
    obtain ⟨hne, rfl⟩ := Schema.Action.simplify?_eq_some.mp hsimplify
    obtain ⟨a₀, h₀, b, pre, hb, hpre, rfl⟩ := LiftedProblem.of_mem_groundActions hp ha'
    have hfits := (hp.actions a₀ h₀).precondition
    rw [← (LiftedProblem.accepts_iff.mp hb).1] at hfits
    obtain ⟨hclause, hground⟩ := hpre.isClause hfits
    exact ⟨a₀, h₀, hb, rfl, (hclause.assign _).resolve_left hne, hground.assign _⟩
  have hmethod := fun m (hm : m ∈ (ofLifted p).methods) => LiftedProblem.exists_groundsMethod hp (prune_subset hm)
  refine ⟨fun a ha => ?_, fun a ha => ?_, fun a ha => ?_, fun m hm => ?_, fun m hm => ?_, fun m hm => ?_,
    (LiftedProblem.initialTasks_spec hp).2, fun a ha => ?_, fun m hm => ?_⟩
  · obtain ⟨a₀, -, haccepts, hparameters, -⟩ := haction a ha
    rw [hparameters]
    exact (LiftedProblem.accepts_iff.mp haccepts).1
  · obtain ⟨a₀, -, -, -, hclause, hground⟩ := haction a ha
    exact Expr.literals?_eq_some hclause (Expr.Over.conjuncts hground)
  · obtain ⟨a', -, hsimplify⟩ := mem_simplifyActions.mp ha
    exact (Schema.Action.effectLiterals_simplify? hsimplify).1
  · obtain ⟨-, m₀, v, b, hm₀, hv, hb, hne, rfl⟩ := hmethod m hm
    have hfits := (hp.methods m₀ hm₀).precondition
    rw [← (LiftedProblem.accepts_iff.mp hb).1] at hfits
    obtain ⟨hclause, hground⟩ := Expr.IsInstance.isClause ⟨v, hv, rfl, hne⟩ hfits
    exact Expr.literals?_eq_some hclause (Expr.Over.conjuncts hground)
  · obtain ⟨-, m₀, v, b, hground⟩ := hmethod m hm
    exact (hground.subtasks hp).1
  · obtain ⟨-, m₀, v, b, hground⟩ := hmethod m hm
    exact (hground.subtasks hp).2.2.1
  · obtain ⟨a₀, h₀, haccepts, -⟩ := haction a ha
    exact haccepts.lt_size hp.settled (hp.actions a₀ h₀).types
  · obtain ⟨-, m₀, v, b, hm₀, -, hb, -, rfl⟩ := hmethod m hm
    exact hb.lt_size hp.settled (hp.methods m₀ hm₀).types

/-! ### Relevant tasks and facts -/

variable {p : GroundProblem} {t : GroundTask}

theorem mem_subtasksOf {u : GroundTask} : u ∈ p.subtasksOf t ↔
    ∃ m ∈ p.methods, m.groundTask? = some t ∧ u ∈ m.subtasks := by
  simp only [subtasksOf, List.mem_flatMap, List.mem_filter, beq_iff_eq, and_assoc]

theorem mem_resolvedTasks (h : t ∈ p.resolvedTasks) : t ∈ p.initialTasks := by
  simp only [resolvedTasks, List.mem_map, List.mem_filter] at h
  obtain ⟨⟨u, r⟩, ⟨hu, -⟩, rfl⟩ := h
  exact (List.of_mem_zip hu).1

/-- All tasks that can come up. -/
def mentionedTasks (p : GroundProblem) : List GroundTask := p.initialTasks ++ p.methods.flatMap (·.subtasks)

theorem length_mentionedTasks (p : GroundProblem) :
    p.mentionedTasks.length = p.initialTasks.length + (p.methods.flatMap (·.subtasks)).length := List.length_append

theorem resolvedTasks_subset (p : GroundProblem) : p.resolvedTasks ⊆ p.mentionedTasks :=
  fun _ ht => List.mem_append_left _ (mem_resolvedTasks ht)

theorem subtasksOf_subset (p : GroundProblem) (t : GroundTask) : p.subtasksOf t ⊆ p.mentionedTasks := by
  intro u hu
  obtain ⟨m, hm, -, hum⟩ := mem_subtasksOf.mp hu
  exact List.mem_append_right _ (List.mem_flatMap.mpr ⟨m, hm, hum⟩)

theorem reach_relevantTasks (p : GroundProblem) : p.resolvedTasks ⊆ p.relevantTasks ∧
    p.relevantTasks ⊆ p.mentionedTasks ∧ ∀ t ∈ p.relevantTasks, ∀ u ∈ p.subtasksOf t, u ∈ p.relevantTasks :=
  reach_spec p.resolvedTasks_subset (fun t _ _ hu => p.subtasksOf_subset t hu) (Nat.le_of_eq p.length_mentionedTasks)

theorem relevantTasks_spec (p : GroundProblem) : p.resolvedTasks ⊆ p.relevantTasks ∧
    ∀ t ∈ p.relevantTasks, ∀ m ∈ p.methods, m.groundTask? = some t → ∀ u ∈ m.subtasks, u ∈ p.relevantTasks := by
  obtain ⟨hsub, -, hclosed⟩ := reach_relevantTasks p
  exact ⟨hsub, fun t ht m hm hmt u hu => hclosed t ht u (mem_subtasksOf.mpr ⟨m, hm, hmt, hu⟩)⟩

variable {tasks : List GroundTask}

theorem mem_relevantActions {a : Schema.Action} :
    a ∈ p.relevantActions tasks ↔ a ∈ p.actions ∧ a.groundTask ∈ tasks := by
  rw [relevantActions, List.mem_filter, List.contains_iff_mem]

theorem mem_relevantMethods {m : Schema.Method} :
    m ∈ p.relevantMethods tasks ↔ m ∈ p.methods ∧ ∃ t ∈ tasks, m.groundTask? = some t := by
  rw [relevantMethods, List.mem_filter]
  apply and_congr_right
  intro _
  cases m.groundTask? with
  | none => simp
  | some t => simp

theorem mem_relevantFacts {f : Fact} : f ∈ p.relevantFacts tasks ↔
    (∃ a ∈ p.relevantActions tasks, ∃ l, (l ∈ a.precondition.literals ∨ l ∈ a.effectLiterals) ∧ l.fact = f) ∨
      (∃ m ∈ p.relevantMethods tasks, ∃ l ∈ m.precondition.literals, l.fact = f) ∨ f ∈ p.goal.facts := by
  simp only [relevantFacts, List.mem_eraseDups, List.mem_append, List.mem_flatMap, List.mem_map, or_assoc]

theorem fact_mem_of_action {a : Schema.Action} (ha : a ∈ p.relevantActions tasks) {l : Literal}
    (hl : l ∈ a.precondition.literals) : l.fact ∈ p.relevantFacts tasks :=
  mem_relevantFacts.mpr (Or.inl ⟨a, ha, l, Or.inl hl, rfl⟩)

theorem fact_mem_of_effect {a : Schema.Action} (ha : a ∈ p.relevantActions tasks) {l : Literal}
    (hl : l ∈ a.effectLiterals) : l.fact ∈ p.relevantFacts tasks :=
  mem_relevantFacts.mpr (Or.inl ⟨a, ha, l, Or.inr hl, rfl⟩)

theorem fact_mem_of_method {m : Schema.Method} (hm : m ∈ p.relevantMethods tasks) {l : Literal}
    (hl : l ∈ m.precondition.literals) : l.fact ∈ p.relevantFacts tasks :=
  mem_relevantFacts.mpr (Or.inr (Or.inl ⟨m, hm, l, hl, rfl⟩))

theorem fact_mem_of_goal {f : Fact} (hf : f ∈ p.goal.facts) : f ∈ p.relevantFacts tasks :=
  mem_relevantFacts.mpr (Or.inr (Or.inr hf))

/-! ### What is left can be achieved -/

/-- An action or a method is left for the task. -/
def Achievable (p : GroundProblem) (t : GroundTask) : Prop :=
  (∃ a ∈ p.actions, a.groundTask = t) ∨ ∃ m ∈ p.methods, m.groundTask? = some t

theorem isAchievable_iff_achievable :
    isAchievable (p.actions.map (·.groundTask)).eraseDups p.methods t = true ↔ p.Achievable t := by
  rw [isAchievable_iff, List.mem_eraseDups, List.mem_map, Achievable]

/-- No method is left that needs a task for which nothing is left. -/
structure Supported (p : GroundProblem) : Prop where
  initial : ∀ t ∈ p.resolvedTasks, p.Achievable t
  subtasks : ∀ m ∈ p.methods, ∀ t ∈ m.subtasks, p.Achievable t

theorem supported_ofLifted (p : LiftedProblem) : (ofLifted p).Supported := by
  refine ⟨fun t ht => ?_, fun m hm t ht => ?_⟩
  · obtain ⟨⟨u, r⟩, hu, rfl⟩ := List.mem_map.mp ht
    obtain ⟨hzip, hr⟩ := List.mem_filter.mp hu
    have hresolved : (ofLifted p).initialTasks.zip (ofLifted p).resolved = (ofLifted p).initialTasks.map fun t =>
        (t, isAchievable ((ofLifted p).actions.map (·.groundTask)).eraseDups (ofLifted p).methods t) :=
      List.map_prod_left_eq_zip.symm
    rw [hresolved] at hzip
    obtain ⟨t, -, heq⟩ := List.mem_map.mp hzip
    obtain ⟨rfl, rfl⟩ := Prod.mk.inj heq
    exact isAchievable_iff_achievable.mp hr
  · have hsupported := pruneRounds_stable le_rfl hm
    exact isAchievable_iff_achievable.mp ((mem_supported.mp hsupported).2 t ht)

theorem Supported.achievable (h : p.Supported) : ∀ t ∈ p.relevantTasks, p.Achievable t := by
  refine of_mem_reach h.initial fun t _ u hu => ?_
  obtain ⟨m, hm, -, hum⟩ := mem_subtasksOf.mp hu
  exact h.subtasks m hm u hum

/-! ### What is left can change -/

variable {L : LiftedProblem} {f : Fact}

theorem fixedValue_of_mem_action (hL : L.WellFormed) {a : Schema.Action} (ha : a ∈ (ofLifted L).actions) {l : Literal}
    (hl : l ∈ a.precondition.literals ∨ l ∈ a.effectLiterals) : (ofLifted L).inertia.fixedValue l.fact = none := by
  obtain ⟨a₀, b, pre, hground⟩ := LiftedProblem.exists_isGroundAction hL ha
  rcases hl with hl | hl
  · have hfits := (hL.actions a₀ hground.known).precondition
    rw [← hground.length] at hfits
    have hunknown := Expr.Over.unknown_assign (hground.variant.isClause hfits).2 L.factInertia.fixedValue
    rw [← hground.precondition] at hunknown
    exact hunknown.of_mem_literals ((legible_ofLifted hL).precondition a ha) hl
  · exact ((hground.effect l).mp hl).2

theorem fixedValue_of_mem_method (hL : L.WellFormed) {m : Schema.Method} (hm : m ∈ (ofLifted L).methods) {l : Literal}
    (hl : l ∈ m.precondition.literals) : (ofLifted L).inertia.fixedValue l.fact = none := by
  have hread := (legible_ofLifted hL).condition m hm
  obtain ⟨-, m₀, v, b, hm₀, hv, -, -, rfl⟩ := LiftedProblem.exists_groundsMethod hL (prune_subset hm)
  have hvariant := (Expr.Over.of_mem_variants (hL.methods m₀ hm₀).precondition hv).2
  have hinstance : (v.subst b).Over (fun _ => True) fun _ _ => True :=
    hvariant.subst (fun _ _ => trivial) fun _ _ _ => trivial
  exact (hinstance.unknown_assign L.factInertia.fixedValue).of_mem_literals hread hl

theorem fixedValue_of_mem_goal (hL : L.WellFormed) (hf : f ∈ (ofLifted L).goal.facts) :
    (ofLifted L).inertia.fixedValue f = none := by
  have hgoal : L.groundGoal.Over (fun _ => True) fun _ _ => True :=
    Expr.Over.assign (Expr.Over.mono hL.goal (fun _ _ => trivial) fun _ _ _ => trivial) L.fixedValue
      fun x y _ => Expr.over_equate (E := fun _ _ => True) trivial
  exact (hgoal.unknown_assign L.factInertia.fixedValue).of_mem_facts hf

/-- Where the value of a fact is fixed it was put in for the fact, and effects on the fact were dropped. -/
theorem fixedValue_of_mem_relevantFacts (hL : L.WellFormed) (hf : f ∈ (ofLifted L).relevantFacts tasks) :
    (ofLifted L).inertia.fixedValue f = none := by
  rcases mem_relevantFacts.mp hf with ⟨a, ha, l, hl, rfl⟩ | ⟨m, hm, l, hl, rfl⟩ | hf
  · exact fixedValue_of_mem_action hL (mem_relevantActions.mp ha).1 hl
  · exact fixedValue_of_mem_method hL (mem_relevantMethods.mp hm).1 hl
  · exact fixedValue_of_mem_goal hL hf

end GroundProblem

end HtnPlanner
