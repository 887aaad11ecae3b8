import HtnPlanner.Proofs.Encoded.Indices
import HtnPlanner.Proofs.Encoded.Inheritance
import HtnPlanner.Proofs.Order.Acyclic

/-!
Wherever a search comes from a ground problem, the network and the state fit the problem. If no declared order
goes round in a circle, none ever does, and as long as a task is left one of them can be worked on.
-/

namespace HtnPlanner

variable {p : EncodedProblem} {s t : Situation} {o : Operator}

theorem Effect.Below.apply {n : Nat} {e : Effect} (h : e.Below n) {s : State} (hwidth : s.width = n)
    (hbits : s.facts.Below n) : (e.apply s).width = n ∧ (e.apply s).facts.Below n := by
  constructor
  · rw [Effect.apply, hwidth]
    exact max_eq_left (IndexSet.bound_le h.1)
  · intro i hi
    have hi : (e.apply s).holds i = true := hi
    rw [Effect.holds_apply, Bool.or_eq_true, Bool.and_eq_true] at hi
    rcases hi with ⟨hi, -⟩ | hi
    · exact hbits i hi
    · exact h.1 i hi

/-- The order is a closed one between tasks that there are, and the state has a bit for each fact and no other. -/
structure Situation.WellFormed (p : EncodedProblem) (s : Situation) : Prop extends s.network.Ordered where
  known : ∀ k ∈ s.network.tasks, k < p.tasks.length
  width : s.state.width = p.facts.length
  bits : s.state.facts.Below p.facts.length

namespace EncodedProblem

/-- The declared orders range over the tasks that they are declared for, and are closed. -/
structure Ordered (p : EncodedProblem) : Prop where
  initial : p.initialNetwork.Ordered
  methods : ∀ m ∈ p.methods, TaskNetwork.Ordered ⟨m.subtasks, m.order⟩

theorem wellFormed_initial (hindexed : p.Indexed) (hordered : p.Ordered) : p.initial.WellFormed p :=
  ⟨hordered.initial, hindexed.initialNetwork, hindexed.initialState.1, hindexed.initialState.2⟩

theorem wellFormed_successor (hindexed : p.Indexed) (hordered : p.Ordered) (hs : s.WellFormed p)
    (ht : ⟨o, t⟩ ∈ p.successors s) : t.WellFormed p := by
  obtain ⟨position, hfirst, ⟨a, ha, rfl⟩ | ⟨m, hm, rfl⟩⟩ := successor_cases ht
  · obtain ⟨-, -, heffect⟩ := hindexed.actions a ha
    obtain ⟨hwidth, hbits⟩ := heffect.apply hs.width hs.bits
    refine ⟨hs.toOrdered.remove (hs.lt_length hfirst), fun k hk => ?_, hwidth, hbits⟩
    exact hs.known k (List.mem_of_mem_eraseIdx hk)
  · obtain ⟨-, -, hsubtasks⟩ := hindexed.methods m hm
    refine ⟨hs.toOrdered.decompose (hs.lt_length hfirst) (hordered.methods m hm).size, fun k hk => ?_, hs.width,
      hs.bits⟩
    rcases List.mem_append.mp hk with hk | hk
    · exact hs.known k (List.mem_of_mem_eraseIdx hk)
    · exact hsubtasks k hk

theorem Reachable.wellFormed (hs : p.Reachable s) (hindexed : p.Indexed) (hordered : p.Ordered) : s.WellFormed p := by
  obtain ⟨os, hrun⟩ := hs
  exact hrun.preserves (wellFormed_initial hindexed hordered) fun _ _ _ =>
    wellFormed_successor hindexed hordered

/-- To show something of the order in every situation, show it of the initial one and that it is kept when a task is
taken out or decomposed. -/
theorem Reachable.order_induction {Q : FinRel → Prop} (hs : p.Reachable s) (initial : Q p.initialNetwork.order)
    (erase : ∀ t, p.Reachable t → Q t.network.order → ∀ position ∈ t.network.first,
      Q (t.network.order.erase position))
    (splice : ∀ t, p.Reachable t → Q t.network.order → ∀ position ∈ t.network.first, ∀ m ∈ p.methods,
      Q (t.network.order.splice position m.order)) : Q s.network.order := by
  obtain ⟨os, hrun⟩ := hs
  refine (hrun.preserves (Q := fun t => p.Reachable t ∧ Q t.network.order) ⟨reachable_initial, initial⟩ ?_).2
  rintro u o v ⟨hu, horder⟩ hv
  refine ⟨hu.successor hv, ?_⟩
  obtain ⟨position, hfirst, ⟨a, -, rfl⟩ | ⟨m, hm, rfl⟩⟩ := successor_cases hv
  · exact erase u hu horder position hfirst
  · exact splice u hu horder position hfirst m hm

theorem Reachable.acyclic (hs : p.Reachable s) (hindexed : p.Indexed) (hordered : p.Ordered)
    (hinitial : p.initialNetwork.order.Acyclic) (hmethods : ∀ m ∈ p.methods, m.order.Acyclic) :
    s.network.order.Acyclic := by
  refine hs.order_induction hinitial (fun t _ hacyclic position _ => hacyclic.erase position) ?_
  intro t ht hacyclic position _ m hm
  exact hacyclic.splice (ht.wellFormed hindexed hordered).transitive (hmethods m hm) (hordered.methods m hm).transitive
    position

end EncodedProblem

theorem GroundProblem.ordered_ofGround {p : GroundProblem} (hp : p.WellFormed) :
    (EncodedProblem.ofGround p).Ordered := by
  refine ⟨ordered_networkOf hp none, fun m hm => ?_⟩
  obtain ⟨i, hi⟩ := List.mem_iff_getElem?.mp hm
  have hordered := ordered_networkOf hp (some i)
  rwa [EncodedProblem.networkOf, hi] at hordered

theorem EncodedProblem.ordered_of_ground {domain : Option Definition.Domain} {problem : Option Definition.Problem}
    {P : EncodedProblem} (h : ground domain problem = .ok P) : P.Ordered := by
  obtain ⟨p, hp, rfl⟩ := wellFormed_of_ground h
  exact GroundProblem.ordered_ofGround hp

/-- Every situation that can be reached fits the problem. If none of the declared orders has a circle, then neither has
the order of any such situation, and in each with a task left there is one that no other comes before. -/
theorem ground_situations_wellFormed {domain : Option Definition.Domain} {problem : Option Definition.Problem}
    {P : EncodedProblem} (h : ground domain problem = .ok P) :
    (∀ s, P.Reachable s → s.WellFormed P) ∧
    (P.initialNetwork.order.Acyclic → (∀ m ∈ P.methods, m.order.Acyclic) →
      ∀ s, P.Reachable s → s.network.order.Acyclic ∧
        (s.network.tasks ≠ [] → ∃ i < s.network.tasks.length, ∀ j, s.network.order.holds j i = false)) := by
  have hindexed := EncodedProblem.indexed_of_ground h
  have hordered := EncodedProblem.ordered_of_ground h
  refine ⟨fun s hs => hs.wellFormed hindexed hordered, fun hinitial hmethods s hs => ?_⟩
  have hacyclic := hs.acyclic hindexed hordered hinitial hmethods
  have hwell := hs.wellFormed hindexed hordered
  refine ⟨hacyclic, fun hne => ?_⟩
  obtain ⟨i, hi⟩ := hacyclic.exists_minimal hwell.transitive (hwell.size_pos hne)
  exact ⟨i, hwell.lt_length hi, (FinRel.mem_minimal.mp hi).2⟩

theorem ground_situations_wellFormed_lamp : ∃ P, ground lampDomain lampProblem = .ok P ∧
    P.initialNetwork.order.Acyclic ∧ (∀ m ∈ P.methods, m.order.Acyclic) ∧ ∀ s, P.Reachable s → s.WellFormed P ∧ s.network.order.Acyclic ∧
      (s.network.tasks ≠ [] → ∃ i < s.network.tasks.length, ∀ j, s.network.order.holds j i = false) := by
  obtain ⟨P, hP, hinitial, hmethods⟩ : ∃ P, ground lampDomain lampProblem = .ok P ∧
      P.initialNetwork.order.Acyclic ∧ ∀ m ∈ P.methods, m.order.Acyclic := exists_ok_of_any (by decide +kernel)
  obtain ⟨hwell, hacyclic⟩ := ground_situations_wellFormed hP
  exact ⟨P, hP, hinitial, hmethods, fun s hs => ⟨hwell s hs, hacyclic hinitial hmethods s hs⟩⟩

end HtnPlanner
