import HtnPlanner.Proofs.Encoded.Faithful
import HtnPlanner.Proofs.Lookup.Collected

/-!
What the search relies on without a check: all numbers that come up in a problem are of facts, tasks, actions
and methods that there are, and there is something to be done for every task.
-/

namespace HtnPlanner

/-- All members are below `n`. -/
def IndexSet.Below (n : Nat) (s : IndexSet) : Prop := ∀ i, s.contains i = true → i < n

def Condition.Below (n : Nat) (c : Condition) : Prop := c.pos.Below n ∧ c.neg.Below n

def Effect.Below (n : Nat) (e : Effect) : Prop := e.add.Below n ∧ e.del.Below n

namespace EncodedProblem

/-- The achievable initial tasks, and all that the methods lead to from there. -/
inductive Needed (p : EncodedProblem) : Nat → Prop
  | initial {k : Nat} (known : some k ∈ p.initialTasks) : Needed p k
  | subtask {k : Nat} {m : Encoded.Method} (known : m ∈ p.methods) (above : Needed p m.task) (below : k ∈ m.subtasks) :
      Needed p k

structure Indexed (p : EncodedProblem) : Prop where
  facts : p.facts.Nodup
  factIndex : ∀ f k, p.factIndex? f = some k ↔ p.facts[k]? = some f
  tasks : (p.tasks.map (·.ground)).Nodup
  taskIndex : ∀ t k, p.taskIndex? t = some k ↔ ∃ task, p.tasks[k]? = some task ∧ task.ground = t
  primitive : ∀ task ∈ p.tasks, task.primitive = p.symbols.isPrimitive task.ground.symbol
  actions : ∀ a ∈ p.actions, a.task < p.tasks.length ∧ a.precondition.Below p.facts.length ∧
    a.effect.Below p.facts.length
  methods : ∀ m ∈ p.methods, m.task < p.tasks.length ∧ m.precondition.Below p.facts.length ∧
    ∀ k ∈ m.subtasks, k < p.tasks.length
  goal : ∀ c ∈ p.goal.disjuncts, c.Below p.facts.length
  initialState : p.initialState.width = p.facts.length ∧ p.initialState.facts.Below p.facts.length
  initialTasks : ∀ k, some k ∈ p.initialTasks → k < p.tasks.length
  initialNetwork : ∀ k ∈ p.initialNetwork.tasks, k < p.tasks.length
  ascending : ∀ k < p.tasks.length, (p.resolversOf k).Pairwise (· < ·)
  resolved : ∀ k < p.tasks.length, p.resolversOf k ≠ []
  accomplished : ∀ k < p.tasks.length, p.isPrimitive k = true →
    ∀ i, i ∈ p.resolversOf k ↔ ∃ a, p.actions[i]? = some a ∧ a.task = k
  decomposed : ∀ k < p.tasks.length, p.isPrimitive k = false →
    ∀ i, i ∈ p.resolversOf k ↔ ∃ m, p.methods[i]? = some m ∧ m.task = k
  needed : ∀ k < p.tasks.length, p.Needed k

end EncodedProblem

namespace Encoded

variable {facts : List Fact} {tasks : List GroundTask}

theorem below_condition (facts : List Fact) (literals : List Literal) :
    (condition facts literals).Below facts.length :=
  ⟨fun _ => lt_length_of_contains_indices, fun _ => lt_length_of_contains_indices⟩

theorem below_effect (facts : List Fact) (literals : List Literal) : (effect facts literals).Below facts.length :=
  ⟨fun _ => lt_length_of_contains_indices, fun _ => lt_length_of_contains_indices⟩

theorem below_initialState (facts init : List Fact) :
    (State.ofList facts.length (init.filterMap facts.idxOf?)).facts.Below facts.length := by
  intro i hi
  rw [State.ofList, IndexSet.contains_ofList, List.contains_iff_mem, List.mem_filterMap] at hi
  obtain ⟨f, -, hf⟩ := hi
  exact (List.getElem?_eq_some_iff.mp (getElem?_of_idxOf? hf)).1

end Encoded

namespace GroundProblem

variable {p : GroundProblem} {k : Nat}

theorem length_tasks (p : GroundProblem) : (EncodedProblem.ofGround p).tasks.length = p.relevantTasks.length :=
  List.length_map _

theorem nodup_relevantTasks (p : GroundProblem) : p.relevantTasks.Nodup := nodup_reach _ _ _

theorem mem_methods {m : Encoded.Method} : m ∈ (EncodedProblem.ofGround p).methods ↔ ∃ m₀ ∈ p.methods,
    ∃ t ∈ p.relevantTasks, m₀.groundTask? = some t ∧
      Encoded.method (p.relevantFacts p.relevantTasks) p.relevantTasks m₀ = m := by
  rw [EncodedProblem.ofGround, List.mem_map]
  constructor
  · rintro ⟨m₀, hm₀, rfl⟩
    obtain ⟨hknown, t, ht, hmt⟩ := mem_relevantMethods.mp hm₀
    exact ⟨m₀, hknown, t, ht, hmt, rfl⟩
  · rintro ⟨m₀, hknown, t, ht, hmt, rfl⟩
    exact ⟨m₀, mem_relevantMethods.mpr ⟨hknown, t, ht, hmt⟩, rfl⟩

theorem taskIndex?_eq (p : GroundProblem) (t : GroundTask) :
    (EncodedProblem.ofGround p).taskIndex? t = p.relevantTasks.idxOf? t := by
  rw [EncodedProblem.taskIndex?, EncodedProblem.ofGround, List.findIdx?_map]
  rfl

theorem mem_initialTasks : some k ∈ (EncodedProblem.ofGround p).initialTasks ↔
    ∃ t, (t, true) ∈ p.initialTasks.zip p.resolved ∧ p.relevantTasks.idxOf? t = some k := by
  simp only [EncodedProblem.ofGround, List.mem_map, Prod.exists, Option.ite_none_right_eq_some]
  constructor
  · rintro ⟨t, r, hzip, rfl, hk⟩
    exact ⟨t, hzip, hk⟩
  · rintro ⟨t, hzip, hk⟩
    exact ⟨t, true, hzip, rfl, hk⟩

theorem isPrimitive_of_action (hp : p.WellFormed) {a : Encoded.Action} (ha : a ∈ (EncodedProblem.ofGround p).actions) :
    (EncodedProblem.ofGround p).isPrimitive a.task = true := by
  obtain ⟨a₀, ha₀, rfl⟩ := List.mem_map.mp ha
  obtain ⟨hknown, ht⟩ := mem_relevantActions.mp ha₀
  exact (isPrimitive_idxOf ht).trans (hp.actionTask a₀ hknown)

theorem isPrimitive_of_method (hp : p.WellFormed) {m : Encoded.Method} (hm : m ∈ (EncodedProblem.ofGround p).methods) :
    (EncodedProblem.ofGround p).isPrimitive m.task = false := by
  obtain ⟨m₀, hknown, t, ht, hmt, rfl⟩ := mem_methods.mp hm
  obtain ⟨u, hu, hcompound⟩ := hp.methodTask m₀ hknown
  obtain rfl : u = t := Option.some.inj (hu.symm.trans hmt)
  rw [Encoded.method, hmt]
  exact (isPrimitive_idxOf ht).trans hcompound

/-- As no task has both actions and methods, one of the two lists that are put together is empty. -/
theorem resolversOf_eq (hp : p.WellFormed) (hk : k < p.relevantTasks.length) :
    (EncodedProblem.ofGround p).resolversOf k = if (EncodedProblem.ofGround p).isPrimitive k
      then positions (·.task == k) (EncodedProblem.ofGround p).actions
      else positions (·.task == k) (EncodedProblem.ofGround p).methods := by
  rw [resolversOf_ofGround hk]
  split
  · next hprimitive =>
      refine List.append_right_eq_self.mpr (List.eq_nil_iff_forall_not_mem.mpr fun i hi => ?_)
      obtain ⟨m, hm, htask⟩ := mem_positions.mp hi
      have hcompound := isPrimitive_of_method hp (List.mem_of_getElem? hm)
      rw [beq_iff_eq.mp htask, hprimitive] at hcompound
      exact Bool.false_ne_true hcompound.symm
  · next hcompound =>
      refine List.append_left_eq_self.mpr (List.eq_nil_iff_forall_not_mem.mpr fun i hi => ?_)
      obtain ⟨a, ha, htask⟩ := mem_positions.mp hi
      have hprimitive := isPrimitive_of_action hp (List.mem_of_getElem? ha)
      rw [beq_iff_eq.mp htask] at hprimitive
      exact hcompound hprimitive

theorem ascending_resolversOf (hp : p.WellFormed) (hk : k < p.relevantTasks.length) :
    ((EncodedProblem.ofGround p).resolversOf k).Pairwise (· < ·) := by
  rw [resolversOf_eq hp hk]
  split
  · exact pairwise_positions _ _
  · exact pairwise_positions _ _

/-- What can be achieved was not pruned, and what is relevant was not left out. -/
theorem exists_mem_resolversOf (hp : p.Supported) (hk : k < p.relevantTasks.length) :
    ∃ i, i ∈ (EncodedProblem.ofGround p).resolversOf k := by
  have ht := List.getElem_mem hk
  have hindex : p.relevantTasks.idxOf p.relevantTasks[k] = k := (nodup_relevantTasks p).idxOf_getElem k hk
  rw [resolversOf_ofGround hk]
  rcases hp.achievable _ ht with ⟨a, ha, hat⟩ | ⟨m, hm, hmt⟩
  · obtain ⟨i, hi⟩ := List.mem_iff_getElem?.mp (mem_relevantActions.mpr ⟨ha, hat ▸ ht⟩)
    refine ⟨i, List.mem_append_left _ (mem_positions.mpr ⟨_, getElem?_actions hi, beq_iff_eq.mpr ?_⟩)⟩
    rw [Encoded.action, hat, hindex]
  · obtain ⟨i, hi⟩ := List.mem_iff_getElem?.mp (mem_relevantMethods.mpr ⟨hm, _, ht, hmt⟩)
    refine ⟨i, List.mem_append_right _ (mem_positions.mpr ⟨_, getElem?_methods hi, beq_iff_eq.mpr ?_⟩)⟩
    rw [Encoded.method, hmt, Option.elim_some, hindex]

/-- The tasks were collected by following the methods that are kept. -/
theorem needed_idxOf (p : GroundProblem) : ∀ t ∈ p.relevantTasks, t ∈ p.relevantTasks ∧
    (EncodedProblem.ofGround p).Needed (p.relevantTasks.idxOf t) := by
  refine of_mem_reach (fun t ht => ?_) fun t ht u hu => ?_
  · have hrelevant := (reach_relevantTasks p).1 ht
    obtain ⟨⟨t, r⟩, hzip, rfl⟩ := List.mem_map.mp ht
    obtain ⟨hzip, rfl⟩ := List.mem_filter.mp hzip
    exact ⟨hrelevant, .initial (mem_initialTasks.mpr ⟨t, hzip, idxOf?_eq_some hrelevant⟩)⟩
  · obtain ⟨m, hm, hmt, hum⟩ := mem_subtasksOf.mp hu
    have habove : (EncodedProblem.ofGround p).Needed
        (Encoded.method (p.relevantFacts p.relevantTasks) p.relevantTasks m).task := by
      rw [Encoded.method, hmt]
      exact ht.2
    exact ⟨(relevantTasks_spec p).2 t ht.1 m hm hmt u hum,
      .subtask (mem_methods.mpr ⟨m, hm, t, ht.1, hmt, rfl⟩) habove (List.mem_map_of_mem hum)⟩

theorem indexed_ofGround (hp : p.WellFormed) (hsupported : p.Supported) : (EncodedProblem.ofGround p).Indexed := by
  have hground : (EncodedProblem.ofGround p).tasks.map (·.ground) = p.relevantTasks := by
    rw [EncodedProblem.ofGround, List.map_map]
    exact List.map_id _
  have hfacts : (EncodedProblem.ofGround p).facts.Nodup := nodup_eraseDups _
  have hinitial : ∀ k, some k ∈ (EncodedProblem.ofGround p).initialTasks →
      k < (EncodedProblem.ofGround p).tasks.length := by
    intro k hk
    obtain ⟨t, -, hk⟩ := mem_initialTasks.mp hk
    rw [length_tasks]
    exact (List.getElem?_eq_some_iff.mp (getElem?_of_idxOf? hk)).1
  refine
    { facts := hfacts
      factIndex := fun f k => idxOf?_eq_some_iff_of_nodup hfacts
      tasks := hground ▸ nodup_relevantTasks p
      taskIndex := fun t k => ?_
      primitive := List.forall_mem_map.mpr fun t _ => rfl
      actions := List.forall_mem_map.mpr fun a ha => ⟨?_, Encoded.below_condition _ _, Encoded.below_effect _ _⟩
      methods := fun m hm => ?_
      goal := List.forall_mem_map.mpr fun c _ => Encoded.below_condition _ _
      initialState := ⟨rfl, Encoded.below_initialState _ _⟩
      initialTasks := hinitial
      initialNetwork := fun k hk => ?_
      ascending := fun k hk => ascending_resolversOf hp (length_tasks p ▸ hk)
      resolved := fun k hk => ?_
      accomplished := fun k hk hprimitive i => ?_
      decomposed := fun k hk hcompound i => ?_
      needed := fun k hk => ?_ }
  · rw [taskIndex?_eq, idxOf?_eq_some_iff_of_nodup (nodup_relevantTasks p), ← hground, List.getElem?_map,
      Option.map_eq_some_iff]
  · rw [length_tasks]
    exact List.idxOf_lt_length_of_mem (mem_relevantActions.mp ha).2
  · obtain ⟨m₀, hknown, t, ht, hmt, rfl⟩ := mem_methods.mp hm
    rw [length_tasks]
    refine ⟨?_, Encoded.below_condition _ _, List.forall_mem_map.mpr fun u hu => ?_⟩
    · rw [Encoded.method, hmt]
      exact List.idxOf_lt_length_of_mem ht
    · exact List.idxOf_lt_length_of_mem ((relevantTasks_spec p).2 t ht m₀ hknown hmt u hu)
  · obtain ⟨_, hk, rfl⟩ := List.mem_filterMap.mp hk
    exact hinitial k hk
  · obtain ⟨i, hi⟩ := exists_mem_resolversOf hsupported (length_tasks p ▸ hk)
    exact List.ne_nil_of_mem hi
  · rw [resolversOf_eq hp (length_tasks p ▸ hk), if_pos hprimitive, mem_positions]
    simp only [beq_iff_eq]
  · rw [resolversOf_eq hp (length_tasks p ▸ hk), if_neg (by simp [hcompound]), mem_positions]
    simp only [beq_iff_eq]
  · rw [length_tasks] at hk
    have hneeded := (needed_idxOf p _ (List.getElem_mem hk)).2
    rwa [(nodup_relevantTasks p).idxOf_getElem k hk] at hneeded

end GroundProblem

theorem EncodedProblem.indexed_of_ground {domain : Option Definition.Domain} {problem : Option Definition.Problem}
    {P : EncodedProblem} (h : ground domain problem = .ok P) : P.Indexed := by
  obtain ⟨L, hL, rfl⟩ := exists_lifted_of_ground h
  exact GroundProblem.indexed_ofGround (GroundProblem.wellFormed_ofLifted hL) (GroundProblem.supported_ofLifted L)

/-- In a problem that comes out of grounding every number is right, something can be done for every task, every task
may come up, and every fact may change. The facts and the tasks are those that were collected, and the maps that were
filled in along with them have the indices. -/
theorem ground_indexed {domain : Option Definition.Domain} {problem : Option Definition.Problem} {P : EncodedProblem}
    (h : ground domain problem = .ok P) :
    P.Indexed ∧ ∃ L, LiftedProblem.ofDefinitions domain problem = .ok L ∧
      (∀ f ∈ P.facts, (GroundProblem.ofLifted L).inertia.fixedValue f = none) ∧
      ∃ facts tasks, Lookup.collect (.ofLifted L) = some (facts, tasks) ∧ facts.members = P.facts ∧
        tasks.members = P.tasks ∧ (∀ f, facts.numbers[f]? = P.factIndex? f) ∧
        ∀ t, tasks.numbers[t]? = P.taskIndex? t := by
  refine ⟨EncodedProblem.indexed_of_ground h, ?_⟩
  obtain ⟨L, hL, rfl⟩ := Except.map_eq_ok.mp h
  have hwell := LiftedProblem.wellFormed_of_ofDefinitions hL
  refine ⟨L, hL, fun f hf => GroundProblem.fixedValue_of_mem_relevantFacts hwell hf, ?_⟩
  obtain ⟨facts, tasks, hcollect, hfacts, htasks⟩ := Lookup.collect_eq (GroundProblem.legible_ofLifted hwell)
  refine ⟨facts, tasks, hcollect, hfacts.members, htasks.members, hfacts.numbers_id, fun t => ?_⟩
  rw [GroundProblem.taskIndex?_eq]
  exact htasks.numbers t

theorem ground_indexed_lamp : ∃ P, ground lampDomain lampProblem = .ok P ∧ P.facts.length = 3 ∧ P.tasks.length = 5 ∧
    P.Indexed := by
  obtain ⟨P, hP, hfacts, htasks⟩ : ∃ P, ground lampDomain lampProblem = .ok P ∧
      P.facts.length = 3 ∧ P.tasks.length = 5 := exists_ok_of_any (by decide +kernel)
  exact ⟨P, hP, hfacts, htasks, (ground_indexed hP).1⟩

end HtnPlanner
