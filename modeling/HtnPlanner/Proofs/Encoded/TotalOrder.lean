import HtnPlanner.Proofs.Encoded.Situations
import HtnPlanner.Proofs.Search.Shortest

/-!
Where all declared orders are chains every network is a chain, with one task that can be worked on next. A replay has
no choice then, so that a plan is valid whenever its operators lead to a goal.
-/

namespace HtnPlanner

namespace EncodedProblem

variable {p : EncodedProblem} {s t u : Situation} {o : Operator} {os : List Operator}

theorem Reachable.isTotal (hs : p.Reachable s) (hindexed : p.Indexed) (hordered : p.Ordered)
    (htotal : p.isTotal = true) : s.network.isTotal = true := by
  rw [EncodedProblem.isTotal, Bool.and_eq_true, List.all_eq_true] at htotal
  obtain ⟨hmethods, hinitial⟩ := htotal
  refine hs.order_induction (Q := fun r => r.isTotal = true) hinitial
    (fun t _ horder position _ => FinRel.isTotal_erase horder position) fun t ht horder position hfirst m hm => ?_
  exact FinRel.isTotal_splice horder (ht.wellFormed hindexed hordered).transitive (hmethods m hm)
    (hordered.methods m hm).transitive (FinRel.mem_minimal.mp hfirst).1

theorem Reachable.exists_first_eq (hs : p.Reachable s) (hindexed : p.Indexed) (hordered : p.Ordered)
    (htotal : p.isTotal = true) (hne : s.network.tasks ≠ []) : ∃ i, s.network.first = [i] := by
  have hwell := hs.wellFormed hindexed hordered
  exact FinRel.exists_minimal_eq_singleton (hs.isTotal hindexed hordered htotal) hwell.transitive (hwell.size_pos hne)

/-! ### Operators tell successors apart -/

theorem Indexed.nodup_operatorsFor (h : p.Indexed) {k : Nat} (hk : k < p.tasks.length) : (p.operatorsFor k).Nodup := by
  have hresolvers : (p.resolversOf k).Nodup := (h.ascending k hk).imp Nat.ne_of_lt
  refine hresolvers.map ?_
  split
  · exact fun i j hij => Operator.action.inj hij
  · exact fun i j hij => Operator.method.inj hij

theorem Indexed.nodup_successorsAt (h : p.Indexed) (hs : s.WellFormed p) (position : Nat) :
    ((p.successorsAt s position).map (·.operator)).Nodup := by
  have hoperators : (p.successorsAt s position).map (·.operator) =
      (s.network.tasks[position]?.elim [] p.operatorsFor).filter (p.isApplicable s.state) := by
    rw [successorsAt, List.map_map]
    exact List.map_id _
  rw [hoperators]
  refine List.Nodup.filter _ ?_
  cases hk : s.network.tasks[position]? with
  | none => exact List.nodup_nil
  | some k => exact h.nodup_operatorsFor (hs.known k (List.mem_of_getElem? hk))

theorem Reachable.nodup_successors (hs : p.Reachable s) (hindexed : p.Indexed) (hordered : p.Ordered)
    (htotal : p.isTotal = true) : ((p.successors s).map (·.operator)).Nodup := by
  have hwell := hs.wellFormed hindexed hordered
  rw [successors]
  by_cases hempty : s.network.tasks = []
  · rw [hwell.first_eq_nil hempty]
    exact List.nodup_nil
  · obtain ⟨i, hi⟩ := hs.exists_first_eq hindexed hordered htotal hempty
    rw [hi, List.flatMap_singleton]
    exact hindexed.nodup_successorsAt hwell i

/-- Where operators tell successors apart, a run is given by its operators. -/
theorem Run.unique (h : p.Run s os t) (h' : p.Run s os u) (hs : p.Reachable s)
    (hnodup : ∀ v, p.Reachable v → ((p.successors v).map (·.operator)).Nodup) : t = u := by
  induction h with
  | nil s =>
      cases h'
      rfl
  | cons first _ ih =>
      cases h' with
      | cons first' rest' =>
          obtain rfl := Successor.mk.inj (List.inj_on_of_nodup_map (hnodup _ hs) first first' rfl) |>.2
          exact ih rest' (hs.successor first)

end EncodedProblem

/-- If all declared orders are chains, then so is that of every situation, its one first task is the only one that can
be worked on, and operators tell successors apart. So a plan is valid if, and only if, its operators lead to a
goal, and they lead to no other situation. -/
theorem ground_total_order {domain : Option Definition.Domain} {problem : Option Definition.Problem}
    {P : EncodedProblem} (h : ground domain problem = .ok P) (htotal : P.isTotal = true) (hsolvable : P.isSolvable = true) :
    (∀ s, P.Reachable s → s.network.isTotal = true ∧
      (s.network.tasks ≠ [] → ∃ i, s.network.first = [i]) ∧ ((P.successors s).map (·.operator)).Nodup) ∧
    (∀ plan, P.validate plan = .ok () ↔ ∃ s, P.Run P.initial plan.steps s ∧ P.isGoal s = true) ∧
    ∀ os s t, P.Run P.initial os s → P.Run P.initial os t → s = t := by
  have hindexed := EncodedProblem.indexed_of_ground h
  have hordered := EncodedProblem.ordered_of_ground h
  have hnodup := fun s (hs : P.Reachable s) => hs.nodup_successors hindexed hordered htotal
  refine ⟨fun s hs => ⟨hs.isTotal hindexed hordered htotal, hs.exists_first_eq hindexed hordered htotal, hnodup s hs⟩,
    fun plan => ⟨fun hvalid => ?_, ?_⟩, fun os s t hs ht => hs.unique ht EncodedProblem.reachable_initial hnodup⟩
  · obtain ⟨p, hp, rfl⟩ := wellFormed_of_ground h
    obtain ⟨-, s, hreplay, hgoal⟩ := EncodedProblem.validate_eq_ok.mp hvalid
    exact ⟨s, (EncodedProblem.run_of_replay (GroundProblem.complete_ofGround hp) hreplay).1, hgoal⟩
  · rintro ⟨s, hrun, hgoal⟩
    have hapart : ∀ u, P.Reachable u → ∀ i ∈ u.network.first, ∀ j ∈ u.network.first,
        u.network.tasks[i]? = u.network.tasks[j]? → i = j := by
      intro u hu i hi j hj _
      have hlt := (hu.wellFormed hindexed hordered).lt_length hi
      obtain ⟨k, hk⟩ := hu.exists_first_eq hindexed hordered htotal (List.length_pos_iff.mp (Nat.zero_lt_of_lt hlt))
      rw [hk, List.mem_singleton] at hi hj
      rw [hi, hj]
    obtain ⟨p, hp, rfl⟩ := wellFormed_of_ground h
    have hconsistent := GroundProblem.consistent_ofGround hp
    have hfirst := hrun.firstRun hconsistent EncodedProblem.reachable_initial hapart
    rcases EncodedProblem.validate_of_run hconsistent hsolvable hrun hgoal with ⟨hok, -⟩ | ⟨-, hnone⟩
    · exact hok
    · exact absurd ⟨s, hfirst⟩ hnone

theorem ground_total_order_climb : ∃ P, ground climbDomain climbProblem = .ok P ∧ P.isTotal = true ∧
    P.isSolvable = true ∧ P.validate climbPlan = .ok () ∧
    (∃ s, P.Run P.initial climbPlan.steps s ∧ P.isGoal s = true) ∧
    ∀ s, P.Reachable s → s.network.tasks ≠ [] → ∃ i, s.network.first = [i] := by
  obtain ⟨P, hP, htotal, hsolvable, hvalid⟩ : ∃ P, ground climbDomain climbProblem = .ok P ∧ P.isTotal = true ∧
      P.isSolvable = true ∧ P.validate climbPlan = .ok () := exists_ground_of_any (by decide +kernel)
  obtain ⟨hchain, hiff, -⟩ := ground_total_order hP htotal hsolvable
  exact ⟨P, hP, htotal, hsolvable, hvalid, (hiff climbPlan).mp hvalid, fun s hs => (hchain s hs).2.1⟩

end HtnPlanner
