import HtnPlanner.Search.Basic

namespace HtnPlanner.EncodedProblem

variable (p : EncodedProblem)

/-- A chain of successors and the operators that lead along it. -/
inductive Run : Situation → List Operator → Situation → Prop
  | nil (s : Situation) : Run s [] s
  | cons {s t u : Situation} {o : Operator} {os : List Operator}
      (first : ⟨o, t⟩ ∈ p.successors s) (rest : Run t os u) : Run s (o :: os) u

def Reachable (s : Situation) : Prop := ∃ os, p.Run p.initial os s

variable {p} {s t u : Situation} {o : Operator} {os : List Operator}

theorem mem_successorsAt_iff {position : Nat} : ⟨o, t⟩ ∈ p.successorsAt s position ↔
    ∃ k, s.network.tasks[position]? = some k ∧ o ∈ p.operatorsFor k ∧ p.isApplicable s.state o = true ∧
      t = p.apply s position o := by
  simp only [successorsAt, List.mem_map, List.mem_filter, Successor.mk.injEq]
  cases s.network.tasks[position]? with
  | none => simp
  | some k =>
      constructor
      · rintro ⟨o, ⟨ho, happ⟩, rfl, rfl⟩
        exact ⟨k, rfl, ho, happ, rfl⟩
      · rintro ⟨k, hk, ho, happ, rfl⟩
        obtain rfl := Option.some.inj hk
        exact ⟨o, ⟨ho, happ⟩, rfl, rfl⟩

theorem mem_successors_iff :
    ⟨o, t⟩ ∈ p.successors s ↔ ∃ position ∈ s.network.first, ⟨o, t⟩ ∈ p.successorsAt s position := by
  simp [successors]

/-- Applying an operator either takes its task out, and changes the state, or puts subtasks in its place. -/
theorem apply_cases (h : p.isApplicable s.state o = true) (position : Nat) :
    (∃ i a, o = .action i ∧ p.actions[i]? = some a ∧
      p.apply s position o = ⟨a.effect.apply s.state, s.network.remove position⟩) ∨
    ∃ i m, o = .method i ∧ p.methods[i]? = some m ∧
      p.apply s position o = ⟨s.state, s.network.decompose position m.subtasks m.order⟩ := by
  cases o with
  | action i =>
      cases hi : p.actions[i]? with
      | none => simp [isApplicable, hi] at h
      | some a => exact Or.inl ⟨i, a, rfl, hi, by simp [apply, hi]⟩
  | method i =>
      cases hi : p.methods[i]? with
      | none => simp [isApplicable, hi] at h
      | some m => exact Or.inr ⟨i, m, rfl, hi, by simp [apply, hi]⟩

theorem successor_cases (h : ⟨o, t⟩ ∈ p.successors s) : ∃ position ∈ s.network.first,
    (∃ a ∈ p.actions, t = ⟨a.effect.apply s.state, s.network.remove position⟩) ∨
      ∃ m ∈ p.methods, t = ⟨s.state, s.network.decompose position m.subtasks m.order⟩ := by
  obtain ⟨position, hfirst, hs⟩ := mem_successors_iff.mp h
  obtain ⟨-, -, -, happ, rfl⟩ := mem_successorsAt_iff.mp hs
  refine ⟨position, hfirst, (apply_cases happ position).imp ?_ ?_⟩
  · rintro ⟨i, a, -, hi, heq⟩
    exact ⟨a, List.mem_of_getElem? hi, heq⟩
  · rintro ⟨i, m, -, hi, heq⟩
    exact ⟨m, List.mem_of_getElem? hi, heq⟩

theorem Run.concat (h : p.Run s os t) (hu : ⟨o, u⟩ ∈ p.successors t) : p.Run s (os ++ [o]) u := by
  induction h with
  | nil s => exact .cons hu (.nil u)
  | cons first _ ih => exact .cons first (ih hu)

theorem Run.preserves {Q : Situation → Prop} (h : p.Run s os t) (hs : Q s)
    (hstep : ∀ s o t, Q s → ⟨o, t⟩ ∈ p.successors s → Q t) : Q t := by
  induction h with
  | nil s => exact hs
  | cons first _ ih => exact ih (hstep _ _ _ hs first)

theorem reachable_initial : p.Reachable p.initial := ⟨[], .nil _⟩

theorem Reachable.successor (h : p.Reachable s) (ht : ⟨o, t⟩ ∈ p.successors s) : p.Reachable t := by
  obtain ⟨os, h⟩ := h
  exact ⟨os ++ [o], h.concat ht⟩

end HtnPlanner.EncodedProblem
