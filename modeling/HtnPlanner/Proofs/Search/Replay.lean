import HtnPlanner.Proofs.Order.Closure
import HtnPlanner.Proofs.Search.Run
import HtnPlanner.Search.Validate
import Mathlib.Data.List.Perm.Basic

/-!
A plan does not say on which of several equal tasks an operator was used, and its replay takes the first.
The states are those of the run that the plan is from, and the tasks are too but for their positions. So
the one thing that can go wrong is that the first was not the right one, and a task comes up too late.
-/

namespace HtnPlanner.EncodedProblem

variable (p : EncodedProblem)

/-- Each operator is used on the first position of its task among those that may be worked on next. -/
inductive FirstRun : Situation → List Operator → Situation → Prop
  | nil (s : Situation) : FirstRun s [] s
  | cons {s t : Situation} {o : Operator} {os : List Operator} {k position : Nat} (task : p.taskOf? o = some k)
      (next : position ∈ s.network.first) (held : s.network.tasks[position]? = some k)
      (least : ∀ j ∈ s.network.first, s.network.tasks[j]? = some k → position ≤ j)
      (rest : FirstRun (p.apply s position o) os t) : FirstRun s (o :: os) t

variable {p} {s t r : Situation} {o : Operator} {os : List Operator} {k position : Nat}

theorem positionOf?_eq_some_iff : positionOf? s k = some position ↔
    position ∈ s.network.first ∧ s.network.tasks[position]? = some k ∧
      ∀ j ∈ s.network.first, s.network.tasks[j]? = some k → position ≤ j := by
  have hfirst : ∀ i, i ∈ s.network.first ↔
      i < s.network.order.size ∧ s.network.order.hasPredecessor i = false := by
    intro i
    rw [TaskNetwork.first, FinRel.minimal, List.mem_filter, List.mem_range, Bool.not_eq_true']
  have hfind : positionOf? s k = (List.range s.network.order.size).find? fun j =>
      decide (s.network.order.hasPredecessor j = false ∧ s.network.tasks[j]? = some k) := by
    rw [positionOf?, TaskNetwork.first, FinRel.minimal, List.find?_filter]
    simp
  rw [hfind, List.find?_range_eq_some]
  simp only [hfirst, decide_eq_true_eq, List.mem_range]
  constructor
  · rintro ⟨⟨hfree, htask⟩, hsize, hleast⟩
    refine ⟨⟨hsize, hfree⟩, htask, fun j hj hjk => ?_⟩
    by_contra hlt
    have hskip := hleast j (by omega)
    simp [hj.2, hjk] at hskip
  · rintro ⟨⟨hsize, hfree⟩, htask, hleast⟩
    refine ⟨⟨hfree, htask⟩, hsize, fun j hj => ?_⟩
    rw [Bool.not_eq_true', decide_eq_false_iff_not]
    rintro ⟨hjfree, hjtask⟩
    have hle := hleast j ⟨by omega, hjfree⟩ hjtask
    omega

structure Alike (s r : Situation) : Prop where
  state : s.state = r.state
  tasks : s.network.tasks.Perm r.network.tasks

theorem Alike.apply (h : Alike s r) {i j : Nat} (hij : s.network.tasks[i]? = r.network.tasks[j]?) (o : Operator) :
    Alike (p.apply s i o) (p.apply r j o) := by
  have htasks := (List.perm_eraseIdx_of_getElem?_eq hij).mpr h.tasks
  cases o with
  | action a =>
      rw [EncodedProblem.apply, EncodedProblem.apply]
      cases p.actions[a]? with
      | none => exact h
      | some a => exact ⟨congrArg a.effect.apply h.state, htasks⟩
  | method m =>
      rw [EncodedProblem.apply, EncodedProblem.apply]
      cases p.methods[m]? with
      | none => exact h
      | some m => exact ⟨h.state, htasks.append_right _⟩

/-- The operators that are tried for a task are operators for it. -/
def Consistent (p : EncodedProblem) : Prop := ∀ k o, o ∈ p.operatorsFor k → p.taskOf? o = some k

/-- All operators for a task are tried for it. -/
def Complete (p : EncodedProblem) : Prop := ∀ k o, p.taskOf? o = some k → o ∈ p.operatorsFor k

theorem replayStep_eq_ok {step : Nat} : p.replayStep step s o = .ok t ↔
    ∃ k position, p.taskOf? o = some k ∧ p.isApplicable s.state o = true ∧
      positionOf? s k = some position ∧ t = p.apply s position o := by
  rw [replayStep]
  cases p.taskOf? o with
  | none => simp
  | some k =>
      cases p.isApplicable s.state o with
      | false => simp
      | true => cases hposition : positionOf? s k <;> simp [hposition, eq_comm]

/-- Every step of a replay is one that a search may take. -/
theorem run_of_replay (hp : p.Complete) {step : Nat} (h : p.replay step s os = .ok t) :
    p.Run s os t ∧ p.FirstRun s os t := by
  induction os generalizing s step with
  | nil =>
      obtain rfl : s = t := Except.ok.inj h
      exact ⟨.nil s, .nil s⟩
  | cons o os ih =>
      rw [EncodedProblem.replay] at h
      cases hstep : p.replayStep step s o with
      | error fault => simp [hstep, Except.bind] at h
      | ok u =>
          rw [hstep] at h
          obtain ⟨k, position, htask, happ, hposition, rfl⟩ := replayStep_eq_ok.mp hstep
          obtain ⟨hnext, hheld, hleast⟩ := positionOf?_eq_some_iff.mp hposition
          obtain ⟨hrun, hfirst⟩ := ih h
          have hsuccessor : ⟨o, p.apply s position o⟩ ∈ p.successors s := mem_successors_iff.mpr
            ⟨position, hnext, mem_successorsAt_iff.mpr ⟨k, hheld, hp k o htask, happ, rfl⟩⟩
          exact ⟨.cons hsuccessor hrun, .cons htask hnext hheld hleast hfirst⟩

/-- A replay of a run goes through, or it gets stuck on a task that has to wait. -/
theorem Run.replay (hp : p.Consistent) (h : p.Run s os t) (halike : Alike s r) (step : Nat) :
    (∃ u, p.replay step r os = .ok u ∧ p.FirstRun r os u ∧ Alike t u) ∨
      (∃ n o, p.replay step r os = .error (.notNext n o)) ∧ ¬ ∃ u, p.FirstRun r os u := by
  induction h generalizing r step with
  | nil s => exact Or.inl ⟨r, rfl, .nil r, halike⟩
  | @cons s v t o os first rest ih =>
      obtain ⟨i, hi, hfirst⟩ := mem_successors_iff.mp first
      obtain ⟨k, hk, ho, happ, rfl⟩ := mem_successorsAt_iff.mp hfirst
      have htask := hp k o ho
      rw [halike.state] at happ
      cases hposition : positionOf? r k with
      | none =>
          have hstep : p.replayStep step r o = .error (.notNext step o) := by
            simp only [replayStep, htask, happ, if_true, hposition]
          refine Or.inr ⟨⟨step, o, by rw [EncodedProblem.replay, hstep]; rfl⟩, ?_⟩
          rintro ⟨u, hu⟩
          cases hu with
          | cons task next held least rest =>
              obtain rfl := Option.some.inj (htask.symm.trans task)
              have hsome := positionOf?_eq_some_iff.mpr ⟨next, held, least⟩
              simp [hposition] at hsome
      | some j =>
          have hstep : p.replayStep step r o = .ok (p.apply r j o) := by
            simp only [replayStep, htask, happ, if_true, hposition]
          obtain ⟨hnext, hheld, hleast⟩ := positionOf?_eq_some_iff.mp hposition
          have hreplay : p.replay step r (o :: os) = p.replay (step + 1) (p.apply r j o) os := by
            rw [EncodedProblem.replay, hstep]
            rfl
          rw [hreplay]
          rcases ih (halike.apply (hk.trans hheld.symm) o) (step + 1) with ⟨u, hu, hrun, halike⟩ | ⟨hstuck, hnone⟩
          · exact Or.inl ⟨u, hu, .cons htask hnext hheld hleast hrun, halike⟩
          · refine Or.inr ⟨hstuck, ?_⟩
            rintro ⟨u, hu⟩
            cases hu with
            | cons task next held least rest =>
                obtain rfl := Option.some.inj (htask.symm.trans task)
                have hsome := positionOf?_eq_some_iff.mpr ⟨next, held, least⟩
                obtain rfl := Option.some.inj (hposition.symm.trans hsome)
                exact hnone ⟨u, rest⟩

theorem Run.firstRun (hp : p.Consistent) (h : p.Run s os t) (hs : p.Reachable s)
    (hapart : ∀ u, p.Reachable u → ∀ i ∈ u.network.first, ∀ j ∈ u.network.first,
      u.network.tasks[i]? = u.network.tasks[j]? → i = j) : p.FirstRun s os t := by
  induction h with
  | nil s => exact .nil s
  | cons first rest ih =>
      have hrest := ih (hs.successor first)
      obtain ⟨i, hi, hfirst⟩ := mem_successors_iff.mp first
      obtain ⟨k, hk, ho, -, rfl⟩ := mem_successorsAt_iff.mp hfirst
      refine .cons (hp k _ ho) hi hk (fun j hj hjk => ?_) hrest
      exact Nat.le_of_eq (hapart _ hs i hi j hj (hk.trans hjk.symm))

theorem validate_eq_ok {plan : Plan} : p.validate plan = .ok () ↔
    p.isSolvable = true ∧ ∃ u, p.replay 0 p.initial plan.steps = .ok u ∧ p.isGoal u = true := by
  rw [validate]
  cases p.isSolvable with
  | false => simp
  | true =>
      cases p.replay 0 p.initial plan.steps with
      | error fault => simp [Except.bind]
      | ok u =>
          simp only [if_true, true_and, Except.bind, checkEnd, Except.ok.injEq, exists_eq_left', isGoal]
          cases u.network.isEmpty <;> cases p.goal.holds u.state <;> simp

theorem validate_of_run (hp : p.Consistent) (hsolvable : p.isSolvable = true) {plan : Plan}
    (h : p.Run p.initial plan.steps t) (hgoal : p.isGoal t = true) :
    (p.validate plan = .ok () ∧ ∃ u, p.FirstRun p.initial plan.steps u) ∨
      (∃ n o, p.validate plan = .error (.notNext n o)) ∧ ¬ ∃ u, p.FirstRun p.initial plan.steps u := by
  rw [validate, if_pos hsolvable]
  rcases h.replay hp ⟨rfl, List.Perm.refl _⟩ 0 with ⟨u, hu, hrun, halike⟩ | ⟨⟨n, o, hstuck⟩, hnone⟩
  · have hempty : u.network.isEmpty = true ∧ p.goal.holds u.state = true := by
      rw [isGoal, Bool.and_eq_true, halike.state, TaskNetwork.isEmpty, List.isEmpty_iff] at hgoal
      rw [TaskNetwork.isEmpty, List.isEmpty_iff]
      exact ⟨List.perm_nil.mp (hgoal.1 ▸ halike.tasks.symm), hgoal.2⟩
    refine Or.inl ⟨?_, u, hrun⟩
    rw [hu, Except.bind, checkEnd, hempty.1, hempty.2]
    rfl
  · exact Or.inr ⟨⟨n, o, by rw [hstuck]; rfl⟩, hnone⟩

end HtnPlanner.EncodedProblem
