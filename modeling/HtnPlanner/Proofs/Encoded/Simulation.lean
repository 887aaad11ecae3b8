import HtnPlanner.Proofs.Encoded.Network
import HtnPlanner.Proofs.Encoded.Relevance
import HtnPlanner.Proofs.Encoded.State
import HtnPlanner.Proofs.Search.Run

/-!
The search goes through the worlds that the ground actions and methods lead to: every situation stands
for a world, and successors for steps.
-/

namespace HtnPlanner

open Relation

/-- What the operator stands for, whatever its index. -/
def EncodedProblem.label? (p : EncodedProblem) : Operator → Option Label
  | .action i => p.actions[i]?.map fun a => .action a.name a.args
  | .method i => p.methods[i]?.map fun m => .method m.name m.args

namespace GroundProblem

variable {p : GroundProblem} {s s' : Situation} {w w' : World} {o : Operator} {l : Label} {i position : Nat}
  {t : GroundTask} {a : Schema.Action} {m : Schema.Method}

theorem getElem?_actions (h : (p.relevantActions p.relevantTasks)[i]? = some a) :
    (EncodedProblem.ofGround p).actions[i]? =
      some (Encoded.action (p.relevantFacts p.relevantTasks) p.relevantTasks a) := by
  rw [EncodedProblem.ofGround, List.getElem?_map, h, Option.map_some]

theorem getElem?_methods (h : (p.relevantMethods p.relevantTasks)[i]? = some m) :
    (EncodedProblem.ofGround p).methods[i]? =
      some (Encoded.method (p.relevantFacts p.relevantTasks) p.relevantTasks m) := by
  rw [EncodedProblem.ofGround, List.getElem?_map, h, Option.map_some]

inductive Resolves (p : GroundProblem) (t : GroundTask) : Operator → Prop
  | action {i : Nat} {a : Schema.Action} (found : (p.relevantActions p.relevantTasks)[i]? = some a)
      (task : a.groundTask = t) : Resolves p t (.action i)
  | method {i : Nat} {m : Schema.Method} (found : (p.relevantMethods p.relevantTasks)[i]? = some m)
      (task : m.groundTask? = some t) : Resolves p t (.method i)

theorem resolversOf_ofGround {k : Nat} (hk : k < p.relevantTasks.length) :
    (EncodedProblem.ofGround p).resolversOf k =
      positions (·.task == k) (EncodedProblem.ofGround p).actions ++
        positions (·.task == k) (EncodedProblem.ofGround p).methods := by
  rw [EncodedProblem.resolversOf, EncodedProblem.ofGround, List.getD_eq_getElem?_getD, List.getElem?_map,
    List.getElem?_range hk]
  rfl

theorem isPrimitive_idxOf (ht : t ∈ p.relevantTasks) :
    (EncodedProblem.ofGround p).isPrimitive (p.relevantTasks.idxOf t) = p.symbols.isPrimitive t.symbol := by
  rw [EncodedProblem.isPrimitive, EncodedProblem.ofGround, List.getElem?_map, List.getElem?_idxOf ht]
  rfl

theorem exists_resolves_of_mem_operatorsFor (hp : p.WellFormed) {k : Nat}
    (ho : o ∈ (EncodedProblem.ofGround p).operatorsFor k) :
    ∃ t ∈ p.relevantTasks, p.relevantTasks.idxOf t = k ∧ p.Resolves t o := by
  obtain ⟨i, hi, rfl⟩ := List.mem_map.mp ho
  have hk : k < p.relevantTasks.length := by
    by_contra hk
    have hnone : (EncodedProblem.ofGround p).resolversOf k = [] := by
      simp [EncodedProblem.resolversOf, EncodedProblem.ofGround, List.getD_eq_getElem?_getD, hk]
    rw [hnone] at hi
    exact absurd hi List.not_mem_nil
  rw [resolversOf_ofGround hk, List.mem_append, mem_positions, mem_positions] at hi
  rcases hi with ⟨a', ha', htask⟩ | ⟨m', hm', htask⟩
  · rw [EncodedProblem.ofGround, List.getElem?_map] at ha'
    obtain ⟨a, ha, rfl⟩ := Option.map_eq_some_iff.mp ha'
    obtain ⟨hknown, ht⟩ := mem_relevantActions.mp (List.mem_of_getElem? ha)
    obtain rfl : p.relevantTasks.idxOf a.groundTask = k := beq_iff_eq.mp htask
    rw [isPrimitive_idxOf ht, if_pos (hp.actionTask a hknown)]
    exact ⟨a.groundTask, ht, rfl, .action ha rfl⟩
  · rw [EncodedProblem.ofGround, List.getElem?_map] at hm'
    obtain ⟨m, hm, rfl⟩ := Option.map_eq_some_iff.mp hm'
    obtain ⟨hknown, t, ht, hmt⟩ := mem_relevantMethods.mp (List.mem_of_getElem? hm)
    rw [Encoded.method, hmt, beq_iff_eq] at htask
    obtain rfl : p.relevantTasks.idxOf t = k := htask
    obtain ⟨u, hu, hcompound⟩ := hp.methodTask m hknown
    obtain rfl : u = t := Option.some.inj (hu.symm.trans hmt)
    rw [isPrimitive_idxOf ht, if_neg (by simp [hcompound])]
    exact ⟨u, ht, rfl, .method hm hmt⟩

theorem Resolves.mem_operatorsFor (hp : p.WellFormed) (ht : t ∈ p.relevantTasks) (h : p.Resolves t o) :
    o ∈ (EncodedProblem.ofGround p).operatorsFor (p.relevantTasks.idxOf t) := by
  rw [EncodedProblem.operatorsFor, resolversOf_ofGround (List.idxOf_lt_length_of_mem ht), isPrimitive_idxOf ht,
    List.mem_map]
  cases h with
  | @action i a found task =>
      have hprimitive := hp.actionTask a (mem_relevantActions.mp (List.mem_of_getElem? found)).1
      rw [← task, if_pos hprimitive]
      refine ⟨i, List.mem_append_left _ (mem_positions.mpr ⟨_, getElem?_actions found, ?_⟩), rfl⟩
      exact beq_iff_eq.mpr rfl
  | @method i m found task =>
      obtain ⟨u, hu, hcompound⟩ := hp.methodTask m (mem_relevantMethods.mp (List.mem_of_getElem? found)).1
      obtain rfl : u = t := Option.some.inj (hu.symm.trans task)
      rw [if_neg (by simp [hcompound])]
      refine ⟨i, List.mem_append_right _ (mem_positions.mpr ⟨_, getElem?_methods found, ?_⟩), rfl⟩
      rw [Encoded.method, task, beq_iff_eq]
      rfl

/-- An action is never taken for a method: only primitive tasks have actions, only others methods. -/
theorem mem_operatorsFor (hp : p.WellFormed) {k : Nat} : o ∈ (EncodedProblem.ofGround p).operatorsFor k ↔
    ∃ t ∈ p.relevantTasks, p.relevantTasks.idxOf t = k ∧ p.Resolves t o := by
  constructor
  · exact exists_resolves_of_mem_operatorsFor hp
  · rintro ⟨t, ht, rfl, h⟩
    exact h.mem_operatorsFor hp ht

theorem Resolves.taskOf? (h : p.Resolves t o) :
    (EncodedProblem.ofGround p).taskOf? o = some (p.relevantTasks.idxOf t) := by
  cases h with
  | action found task =>
      rw [EncodedProblem.taskOf?, getElem?_actions found, ← task]
      rfl
  | method found task =>
      rw [EncodedProblem.taskOf?, getElem?_methods found, Option.map_some, Encoded.method, task]
      rfl

/-! ### Steps -/

structure Simulates (p : GroundProblem) (s : Situation) (w : World) : Prop where
  state : s.state.Encodes (p.relevantFacts p.relevantTasks) w.facts
  network : s.network.Encodes p.relevantTasks w.network

theorem Simulates.task (h : p.Simulates s w) (ht : w.network.tasks[position]? = some t) :
    s.network.tasks[position]? = some (p.relevantTasks.idxOf t) ∧ t ∈ p.relevantTasks := by
  refine ⟨?_, h.network.known t (List.mem_of_getElem? ht)⟩
  rw [h.network.indices, List.getElem?_map, ht, Option.map_some]

theorem Simulates.exists_task (h : p.Simulates s w) {k : Nat} (hk : s.network.tasks[position]? = some k) :
    ∃ t, w.network.tasks[position]? = some t ∧ k = p.relevantTasks.idxOf t := by
  rw [h.network.indices, List.getElem?_map] at hk
  obtain ⟨t, ht, rfl⟩ := Option.map_eq_some_iff.mp hk
  exact ⟨t, ht, rfl⟩

theorem Simulates.action_applicable (h : p.Simulates s w)
    (ha : (p.relevantActions p.relevantTasks)[i]? = some a) :
    (EncodedProblem.ofGround p).isApplicable s.state (.action i) = true ↔
      ∀ l ∈ a.precondition.literals, l.Holds w.facts := by
  rw [EncodedProblem.isApplicable, getElem?_actions ha]
  exact Encoded.holds_condition h.state fun l hl => fact_mem_of_action (List.mem_of_getElem? ha) hl

theorem Simulates.method_applicable (h : p.Simulates s w)
    (hm : (p.relevantMethods p.relevantTasks)[i]? = some m) :
    (EncodedProblem.ofGround p).isApplicable s.state (.method i) = true ↔
      ∀ l ∈ m.precondition.literals, l.Holds w.facts := by
  rw [EncodedProblem.isApplicable, getElem?_methods hm]
  exact Encoded.holds_condition h.state fun l hl => fact_mem_of_method (List.mem_of_getElem? hm) hl

theorem Simulates.apply_action (h : p.Simulates s w) (ha : (p.relevantActions p.relevantTasks)[i]? = some a)
    (hposition : position < w.network.tasks.length) :
    p.Simulates ((EncodedProblem.ofGround p).apply s position (.action i))
      ⟨(w.facts \ {f | ⟨false, f⟩ ∈ a.effectLiterals}) ∪ {f | ⟨true, f⟩ ∈ a.effectLiterals},
        w.network.remove position⟩ := by
  rw [EncodedProblem.apply, getElem?_actions ha]
  exact ⟨Encoded.encodes_apply h.state, h.network.remove hposition⟩

theorem Simulates.apply_method (hp : p.WellFormed) (h : p.Simulates s w)
    (hm : (p.relevantMethods p.relevantTasks)[i]? = some m) (hmt : m.groundTask? = some t)
    (ht : t ∈ p.relevantTasks) (hnext : position ∈ s.network.first) :
    p.Simulates ((EncodedProblem.ofGround p).apply s position (.method i))
      { w with network := w.network.replace position m.subtasks m.network.Before } := by
  have hknown := (mem_relevantMethods.mp (List.mem_of_getElem? hm)).1
  have hsubtasks := (relevantTasks_spec p).2 t ht m hknown hmt
  rw [EncodedProblem.apply, getElem?_methods hm]
  exact ⟨h.state, h.network.decompose hnext (hp.subtasks m hknown) (hp.methodOrder m hknown) hsubtasks⟩

theorem step_of_successor (hp : p.WellFormed) (h : p.Simulates s w)
    (hs : ⟨o, s'⟩ ∈ (EncodedProblem.ofGround p).successors s) :
    ∃ l w', (EncodedProblem.ofGround p).label? o = some l ∧ Ground.Step p.actions p.methods w l w' ∧
      p.Simulates s' w' := by
  obtain ⟨position, hfirst, hs⟩ := EncodedProblem.mem_successors_iff.mp hs
  obtain ⟨k, hk, ho, happ, rfl⟩ := EncodedProblem.mem_successorsAt_iff.mp hs
  obtain ⟨t, ht, rfl⟩ := h.exists_task hk
  obtain ⟨hposition, hnext⟩ := h.network.mem_first_iff.mp hfirst
  obtain ⟨u, hmem, hut, hresolves⟩ := (mem_operatorsFor hp).mp ho
  obtain rfl : u = t := (List.idxOf_inj hmem).mp hut
  cases hresolves with
  | @action i a found task =>
      subst task
      have hknown := (mem_relevantActions.mp (List.mem_of_getElem? found)).1
      have hstep : Ground.Step p.actions p.methods w _ _ :=
        .action hnext ht hknown ((h.action_applicable found).mp happ)
      refine ⟨_, _, ?_, hstep, h.apply_action found hposition⟩
      rw [EncodedProblem.label?, getElem?_actions found]
      rfl
  | @method i m found task =>
      have hknown := (mem_relevantMethods.mp (List.mem_of_getElem? found)).1
      have hstep : Ground.Step p.actions p.methods w _ _ :=
        .method hnext ht task hknown ((h.method_applicable found).mp happ)
      refine ⟨_, _, ?_, hstep, h.apply_method hp found task hmem hfirst⟩
      rw [EncodedProblem.label?, getElem?_methods found]
      rfl

theorem successor_of_step (hp : p.WellFormed) (h : p.Simulates s w)
    (hstep : Ground.Step p.actions p.methods w l w') :
    ∃ o s', (EncodedProblem.ofGround p).label? o = some l ∧ ⟨o, s'⟩ ∈ (EncodedProblem.ofGround p).successors s ∧
      p.Simulates s' w' := by
  cases hstep with
  | @action position a next task known applicable =>
      obtain ⟨hk, hmem⟩ := h.task task
      have hposition : position < w.network.tasks.length := (List.getElem?_eq_some_iff.mp task).1
      obtain ⟨i, found⟩ := List.mem_iff_getElem?.mp (mem_relevantActions.mpr ⟨known, hmem⟩)
      have happ := (h.action_applicable found).mpr applicable
      refine ⟨.action i, _, ?_, EncodedProblem.mem_successors_iff.mpr
        ⟨position, h.network.mem_first_iff.mpr ⟨hposition, next⟩, EncodedProblem.mem_successorsAt_iff.mpr
          ⟨_, hk, (mem_operatorsFor hp).mpr ⟨_, hmem, rfl, .action found rfl⟩, happ, rfl⟩⟩, h.apply_action found hposition⟩
      rw [EncodedProblem.label?, getElem?_actions found]
      rfl
  | @method position t m next task decomposes known applicable =>
      obtain ⟨hk, hmem⟩ := h.task task
      have hposition : position < w.network.tasks.length := (List.getElem?_eq_some_iff.mp task).1
      have hfirst := h.network.mem_first_iff.mpr ⟨hposition, next⟩
      obtain ⟨i, found⟩ := List.mem_iff_getElem?.mp (mem_relevantMethods.mpr ⟨known, t, hmem, decomposes⟩)
      have happ := (h.method_applicable found).mpr applicable
      refine ⟨.method i, _, ?_, EncodedProblem.mem_successors_iff.mpr
        ⟨position, hfirst, EncodedProblem.mem_successorsAt_iff.mpr
          ⟨_, hk, (mem_operatorsFor hp).mpr ⟨_, hmem, rfl, .method found decomposes⟩, happ, rfl⟩⟩,
        h.apply_method hp found decomposes hmem hfirst⟩
      rw [EncodedProblem.label?, getElem?_methods found]
      rfl

/-! ### Runs -/

theorem run_of_encoded_run (hp : p.WellFormed) {os : List Operator} (h : p.Simulates s w)
    (hrun : (EncodedProblem.ofGround p).Run s os s') :
    ∃ ls w', os.map (EncodedProblem.ofGround p).label? = ls.map some ∧
      WorldRun (Ground.Step p.actions p.methods) w ls w' ∧ p.Simulates s' w' := by
  induction hrun generalizing w with
  | nil s => exact ⟨[], w, rfl, .nil w, h⟩
  | cons first _ ih =>
      obtain ⟨l, v, hl, hstep, hv⟩ := step_of_successor hp h first
      obtain ⟨ls, w', hls, hrest, hw'⟩ := ih hv
      exact ⟨l :: ls, w', by rw [List.map_cons, List.map_cons, hl, hls], .cons hstep hrest, hw'⟩

theorem encoded_run_of_run (hp : p.WellFormed) {ls : List Label} (h : p.Simulates s w)
    (hrun : WorldRun (Ground.Step p.actions p.methods) w ls w') :
    ∃ os s', os.map (EncodedProblem.ofGround p).label? = ls.map some ∧
      (EncodedProblem.ofGround p).Run s os s' ∧ p.Simulates s' w' := by
  induction hrun generalizing s with
  | nil w => exact ⟨[], s, rfl, .nil s, h⟩
  | cons first _ ih =>
      obtain ⟨o, u, ho, hsucc, hu⟩ := successor_of_step hp h first
      obtain ⟨os, s', hos, hrest, hs'⟩ := ih hu
      exact ⟨o :: os, s', by rw [List.map_cons, List.map_cons, ho, hos], .cons hsucc hrest, hs'⟩

/-! ### From the initial tasks to the goal -/

def initialWorld (p : GroundProblem) : World :=
  ⟨{f | f ∈ p.init}, ⟨p.initialTasks, TransGen fun i j => (i, j) ∈ p.initialOrder⟩⟩

theorem mem_relevantTasks_of_resolved (ht : (t, true) ∈ p.initialTasks.zip p.resolved) : t ∈ p.relevantTasks :=
  (relevantTasks_spec p).1 (List.mem_map.mpr ⟨(t, true), List.mem_filter.mpr ⟨ht, rfl⟩, rfl⟩)

theorem mem_zip_resolved (hp : p.WellFormed) (h : ∀ r ∈ p.resolved, r = true) (ht : t ∈ p.initialTasks) :
    (t, true) ∈ p.initialTasks.zip p.resolved := by
  have hfst : (p.initialTasks.zip p.resolved).map Prod.fst = p.initialTasks :=
    List.map_fst_zip (Nat.le_of_eq hp.resolved.symm)
  rw [← hfst] at ht
  obtain ⟨⟨t, r⟩, hq, rfl⟩ := List.mem_map.mp ht
  obtain rfl : r = true := h r (List.of_mem_zip hq).2
  exact hq

theorem isSolvable_iff (hp : p.WellFormed) :
    (EncodedProblem.ofGround p).isSolvable = true ↔ ∀ r ∈ p.resolved, r = true := by
  simp only [EncodedProblem.isSolvable, EncodedProblem.ofGround, List.all_map, List.all_eq_true]
  constructor
  · intro h r hr
    have hsnd : (p.initialTasks.zip p.resolved).map Prod.snd = p.resolved :=
      List.map_snd_zip (Nat.le_of_eq hp.resolved)
    rw [← hsnd] at hr
    obtain ⟨⟨t, r⟩, hq, rfl⟩ := List.mem_map.mp hr
    have hsome := h (t, r) hq
    by_contra hr
    simp [hr] at hsome
  · rintro h ⟨t, r⟩ hq
    obtain rfl : r = true := h r (List.of_mem_zip hq).2
    simp [idxOf?_eq_some (mem_relevantTasks_of_resolved hq)]

theorem initialTasks_ofGround (hp : p.WellFormed) (h : ∀ r ∈ p.resolved, r = true) :
    (EncodedProblem.ofGround p).initialTasks = p.initialTasks.map fun t => some (p.relevantTasks.idxOf t) := by
  have hfst : (p.initialTasks.zip p.resolved).map Prod.fst = p.initialTasks :=
    List.map_fst_zip (Nat.le_of_eq hp.resolved.symm)
  conv => rhs; rw [← hfst, List.map_map]
  apply List.map_congr_left
  rintro ⟨t, r⟩ hq
  obtain rfl : r = true := h r (List.of_mem_zip hq).2
  exact idxOf?_eq_some (mem_relevantTasks_of_resolved hq)

theorem simulates_initial (hp : p.WellFormed) (h : ∀ r ∈ p.resolved, r = true) :
    p.Simulates (EncodedProblem.ofGround p).initial p.initialWorld := by
  have htasks := initialTasks_ofGround hp h
  have hnetwork : (EncodedProblem.ofGround p).initialNetwork =
      TaskNetwork.ofPairs (p.initialTasks.map p.relevantTasks.idxOf) p.initialOrder := by
    have hnone : positions (·.isNone) (EncodedProblem.ofGround p).initialTasks = [] := by
      apply List.eq_nil_iff_forall_not_mem.mpr
      intro i hi
      obtain ⟨k, hk, hisNone⟩ := mem_positions.mp hi
      rw [htasks, List.getElem?_map] at hk
      obtain ⟨t, -, rfl⟩ := Option.map_eq_some_iff.mp hk
      exact Bool.false_ne_true hisNone
    show Encoded.initialNetwork (EncodedProblem.ofGround p).initialTasks p.initialOrder = _
    rw [Encoded.initialNetwork, hnone, htasks, List.length_map, TaskNetwork.ofPairs, List.length_map,
      List.filterMap_map]
    simp
  refine ⟨Encoded.encodes_ofList p.init, ?_⟩
  rw [EncodedProblem.initial, hnetwork]
  refine ⟨⟨?_, FinRel.transitive_ofPairs _ _⟩, rfl, ?_, ?_⟩
  · exact FinRel.size_ofPairs _ _
  · exact fun t ht => mem_relevantTasks_of_resolved (mem_zip_resolved hp h ht)
  · intro i j _ _
    refine FinRel.holds_ofPairs (fun q hq => ?_) i j
    rw [List.length_map]
    exact (hp.initialOrder q hq).1

theorem isGoal_iff (hp : p.WellFormed) (h : p.Simulates s w) :
    (EncodedProblem.ofGround p).isGoal s = true ↔ w.network.tasks = [] ∧ p.goal.Holds [] w.facts := by
  rw [EncodedProblem.isGoal, Bool.and_eq_true, TaskNetwork.isEmpty, h.network.indices, List.isEmpty_iff,
    List.map_eq_nil_iff]
  exact and_congr_right fun _ => Encoded.holds_goal hp.goal h.state fun f hf => fact_mem_of_goal hf

end GroundProblem

end HtnPlanner
