import HtnPlanner.Proofs.Grounding
import HtnPlanner.Proofs.Search.Lineage

/-!
In the search problem of a grounding the order between tasks is that of the networks that they come from,
however often they were decomposed.
-/

namespace HtnPlanner

namespace FinRel

theorem size_foldl_erase (ks : List Nat) (r : FinRel) : (ks.foldl erase r).size = r.size - ks.length := by
  induction ks generalizing r with
  | nil => rfl
  | cons k ks ih =>
      rw [List.foldl_cons, ih, size_erase, List.length_cons]
      omega

theorem Transitive.foldl_erase {r : FinRel} (h : r.Transitive) (ks : List Nat) :
    (ks.foldl FinRel.erase r).Transitive := by
  induction ks generalizing r with
  | nil => exact h
  | cons k ks ih => exact ih (h.erase k)

end FinRel

theorem Encoded.ordered_initialNetwork (tasks : List (Option Nat)) (order : List (Nat × Nat)) :
    (initialNetwork tasks order).Ordered := by
  refine ⟨?_, (FinRel.transitive_ofPairs _ _).foldl_erase _⟩
  have hnone : tasks.length = tasks.countP (·.isSome) + tasks.countP (·.isNone) := by
    rw [List.length_eq_countP_add_countP (fun t : Option Nat => t.isSome)]
    refine congrArg (_ + ·) (List.countP_congr fun t _ => ?_)
    cases t <;> simp
  have hsome : (tasks.filterMap id).length = tasks.countP (·.isSome) := List.length_filterMap_eq_countP
  rw [initialNetwork, FinRel.size_foldl_erase, FinRel.size_ofPairs, List.length_reverse, length_positions, hsome]
  omega

theorem GroundProblem.ordered_networkOf {p : GroundProblem} (hp : p.WellFormed) (m : Option Nat) :
    ((EncodedProblem.ofGround p).networkOf m).Ordered := by
  cases m with
  | none => exact Encoded.ordered_initialNetwork _ _
  | some i =>
      cases hi : (p.relevantMethods p.relevantTasks)[i]? with
      | none =>
          have hnone : (EncodedProblem.ofGround p).methods[i]? = none := by
            rw [EncodedProblem.ofGround, List.getElem?_map, hi, Option.map_none]
          rw [EncodedProblem.networkOf, hnone]
          exact ⟨rfl, fun i j k hij => by simp at hij⟩
      | some m =>
          have hm := (mem_relevantMethods.mp (List.mem_of_getElem? hi)).1
          rw [EncodedProblem.networkOf, getElem?_methods hi]
          refine ⟨?_, FinRel.transitive_ofPairs _ _⟩
          show m.network.closedOrder.size = (m.subtasks.map _).length
          rw [Schema.Network.closedOrder, FinRel.size_ofPairs, List.length_map, hp.subtasks m hm]

/-- At every situation of a run two entries are ordered as the places at which their lineages part are in
the one network that has both. So an entry can be worked on if, and only if, nothing is left below a place
that comes before one that it is below, and then nothing ever will be. -/
theorem ground_order_inherited {domain : Option Definition.Domain} {problem : Option Definition.Problem}
    {P : EncodedProblem} (h : ground domain problem = .ok P) :
    (∀ os s, P.Run P.initial os s ↔ ∃ x, P.TracedRun P.initial P.initialLineages os s x) ∧
    ∀ os s x, P.TracedRun P.initial P.initialLineages os s x →
      x.length = s.network.tasks.length ∧
      (∀ i j l k, x[i]? = some l → x[j]? = some k → i ≠ j →
        ∃ a b, Lineage.parting l k = some (a, b) ∧ a.method = b.method ∧ (P.networkOf a.method).Ordered ∧
          (s.network.order.holds i j = true ↔ (P.networkOf a.method).order.holds a.index b.index = true)) ∧
      (∀ i, i ∈ s.network.first ↔ ∃ l, x[i]? = some l ∧
        ∀ above a b, P.precedes a b = true → above ++ [b] <+: l → ∀ k ∈ x, ¬ above ++ [a] <+: k) ∧
      ∀ i l above a b, i ∈ s.network.first → x[i]? = some l → P.precedes a b = true → above ++ [b] <+: l →
        ∀ os' t y, P.TracedRun s x os' t y → ∀ k ∈ y, ¬ above ++ [a] <+: k := by
  obtain ⟨p, hp, rfl⟩ := wellFormed_of_ground h
  have hordered := GroundProblem.ordered_networkOf hp
  refine ⟨fun os s => EncodedProblem.run_iff_tracedRun _, fun os s x hx => ?_⟩
  have hinherits := hx.inherits hordered (.initial (hordered none))
  refine ⟨hinherits.length, fun i j l k hl hk hij => ?_, fun i => hinherits.mem_first_iff, ?_⟩
  · obtain ⟨a, b, hparting, hmethod, hholds⟩ := hinherits.apart hl hk hij
    refine ⟨a, b, hparting, hmethod, hordered _, ?_⟩
    rw [hholds, EncodedProblem.precedes, hmethod, beq_self_eq_true, Bool.true_and]
  · exact fun i l above a b hi hl hab hb os' t y hy => hy.gone hordered hinherits hi hl hab hb

theorem ground_order_inherited_lamp : ∃ P, ground lampDomain lampProblem = .ok P ∧
    ∀ os s x, P.TracedRun P.initial P.initialLineages os s x →
      ∀ i j l k, x[i]? = some l → x[j]? = some k → i ≠ j →
        ∃ a b, Lineage.parting l k = some (a, b) ∧ a.method = b.method ∧ (P.networkOf a.method).Ordered ∧
          (s.network.order.holds i j = true ↔ (P.networkOf a.method).order.holds a.index b.index = true) := by
  obtain ⟨L, hL⟩ := exists_ofDefinitions_lamp
  have hground : ground lampDomain lampProblem = .ok (.ofGround (.ofLifted L)) := by
    rw [ground, hL]
    rfl
  exact ⟨_, hground, fun os s x hx => ((ground_order_inherited hground).2 os s x hx).2.1⟩

end HtnPlanner
