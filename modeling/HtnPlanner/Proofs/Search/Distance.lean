import HtnPlanner.Proofs.Search.Run
import Mathlib.Data.Set.Finite.Lattice
import Mathlib.Data.Set.Finite.List
import Mathlib.Order.Interval.Finset.Nat

/-!
How far situations are from the initial one. There may be infinitely many, but only finitely many at
any distance, since each has finitely many successors.
-/

namespace HtnPlanner.EncodedProblem

variable {p : EncodedProblem} {s t u : Situation} {o : Operator} {os : List Operator} {d e : Nat}

/-- The length of the shortest runs to a situation. -/
def Distance (p : EncodedProblem) (s : Situation) (d : Nat) : Prop :=
  (∃ os, p.Run p.initial os s ∧ os.length = d) ∧ ∀ os, p.Run p.initial os s → d ≤ os.length

theorem Run.of_concat (h : p.Run s (os ++ [o]) u) : ∃ t, p.Run s os t ∧ ⟨o, u⟩ ∈ p.successors t := by
  induction os generalizing s with
  | nil =>
      cases h with
      | cons first rest =>
          cases rest
          exact ⟨s, .nil s, first⟩
  | cons o' os ih =>
      cases h with
      | cons first rest =>
          obtain ⟨t, hrun, hlast⟩ := ih rest
          exact ⟨t, .cons first hrun, hlast⟩

theorem distance_initial : p.Distance p.initial 0 := ⟨⟨[], .nil _, rfl⟩, fun _ _ => Nat.zero_le _⟩

theorem Reachable.exists_distance (h : p.Reachable s) : ∃ d, p.Distance s d := by
  classical
  have hlength : ∃ d, ∃ os, p.Run p.initial os s ∧ os.length = d := by
    obtain ⟨os, hrun⟩ := h
    exact ⟨os.length, os, hrun, rfl⟩
  exact ⟨Nat.find hlength, Nat.find_spec hlength, fun os hrun => Nat.find_min' hlength ⟨os, hrun, rfl⟩⟩

theorem Distance.reachable (h : p.Distance s d) : p.Reachable s := by
  obtain ⟨⟨os, hrun, -⟩, -⟩ := h
  exact ⟨os, hrun⟩

theorem Distance.eq (h : p.Distance s d) (h' : p.Distance s e) : d = e := by
  obtain ⟨⟨os, hrun, rfl⟩, hleast⟩ := h
  obtain ⟨⟨os', hrun', rfl⟩, hleast'⟩ := h'
  exact Nat.le_antisymm (hleast os' hrun') (hleast' os hrun)

theorem Distance.le_of_successor (h : p.Distance s d) (ht : ⟨o, t⟩ ∈ p.successors s) (h' : p.Distance t e) :
    e ≤ d + 1 := by
  obtain ⟨⟨os, hrun, rfl⟩, -⟩ := h
  simpa using h'.2 _ (hrun.concat ht)

/-- A successor that is not as near as `s` is one step further away. -/
theorem Distance.successor (h : p.Distance s d) (ht : ⟨o, t⟩ ∈ p.successors s)
    (hfar : ∀ e, p.Distance t e → d < e) : p.Distance t (d + 1) := by
  obtain ⟨e, he⟩ := (h.reachable.successor ht).exists_distance
  have hle := h.le_of_successor ht he
  have hlt := hfar e he
  obtain rfl : e = d + 1 := by omega
  exact he

theorem Distance.exists_origin (h : p.Distance u (d + 1)) :
    ∃ o s, p.Distance s d ∧ ⟨o, u⟩ ∈ p.successors s := by
  obtain ⟨⟨os, hrun, hlength⟩, hleast⟩ := h
  obtain ⟨os, o, rfl⟩ := List.eq_nil_or_concat os |>.resolve_left (by rintro rfl; simp at hlength)
  rw [List.concat_eq_append] at hrun hlength
  obtain ⟨s, hfirst, hlast⟩ := hrun.of_concat
  refine ⟨o, s, ⟨⟨os, hfirst, by simpa using hlength⟩, fun os' hrun' => ?_⟩, hlast⟩
  simpa using hleast _ (hrun'.concat hlast)

theorem finite_runs (p : EncodedProblem) (s : Situation) (n : Nat) :
    {t | ∃ os, p.Run s os t ∧ os.length = n}.Finite := by
  induction n generalizing s with
  | zero =>
      refine (Set.finite_singleton s).subset ?_
      rintro t ⟨os, hrun, hlength⟩
      obtain rfl := List.eq_nil_of_length_eq_zero hlength
      cases hrun
      rfl
  | succ n ih =>
      have hunion : (⋃ c ∈ {c | c ∈ p.successors s}, {t | ∃ os, p.Run c.situation os t ∧ os.length = n}).Finite :=
        (List.finite_toSet _).biUnion fun c _ => ih c.situation
      refine hunion.subset ?_
      rintro t ⟨os, hrun, hlength⟩
      cases hrun with
      | nil => simp at hlength
      | cons first rest =>
          rw [Set.mem_iUnion₂]
          exact ⟨_, first, _, rest, by simpa using hlength⟩

theorem finite_near (p : EncodedProblem) (d : Nat) : {s | ∃ e, p.Distance s e ∧ e < d}.Finite := by
  have hunion : (⋃ e ∈ Set.Iio d, {s | ∃ os, p.Run p.initial os s ∧ os.length = e}).Finite :=
    (Set.finite_Iio d).biUnion fun e _ => finite_runs p p.initial e
  refine hunion.subset ?_
  rintro s ⟨e, hs, he⟩
  rw [Set.mem_iUnion₂]
  exact ⟨e, he, hs.1⟩

end HtnPlanner.EncodedProblem
