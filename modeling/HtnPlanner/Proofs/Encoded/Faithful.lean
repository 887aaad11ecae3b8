import HtnPlanner.Proofs.Grounding

/-!
On the state whose bits mark the facts of a set, whichever set it is, encoded conditions, effects and goals do
what the ground ones do on the set.
-/

namespace HtnPlanner

variable {facts : List Fact} {s : State} {S : Set Fact} {literals : List Literal}

theorem IndexSet.bound_le {t : IndexSet} {n : Nat} (h : ∀ i, t.contains i = true → i < n) : t.bound ≤ n := by
  by_cases hzero : t.bits = 0
  · rw [bound, if_pos hzero]
    exact Nat.zero_le n
  · rw [bound, if_neg hzero, Nat.succ_le_iff, Nat.log2_lt hzero]
    refine Nat.lt_pow_two_of_testBit _ fun i hi => Bool.eq_false_iff.mpr fun hbit => ?_
    exact absurd (h i hbit) (Nat.not_lt.mpr hi)

/-! ### States for sets -/

open Classical in
/-- The state in which the bits of the facts in the set are set. -/
noncomputable def State.encode (facts : List Fact) (S : Set Fact) : State :=
  ⟨facts.length, .ofPred facts.length fun i => ∃ f ∈ S, facts[i]? = some f⟩

namespace State

theorem holds_encode {i : Nat} : (encode facts S).holds i = true ↔ ∃ f ∈ S, facts[i]? = some f := by
  simp only [holds, encode, IndexSet.contains_ofPred, Bool.and_eq_true, decide_eq_true_eq]
  refine and_iff_right_of_imp ?_
  rintro ⟨f, -, hf⟩
  exact (List.getElem?_eq_some_iff.mp hf).1

theorem encodes_encode (facts : List Fact) (S : Set Fact) : (encode facts S).Encodes facts S := by
  intro f k hk
  rw [holds_encode]
  constructor
  · rintro ⟨g, hg, hgk⟩
    rwa [Option.some.inj ((getElem?_of_idxOf? hk).symm.trans hgk)]
  · exact fun hf => ⟨f, hf, getElem?_of_idxOf? hk⟩

/-- A state without further bits is the one for the set that it encodes. -/
theorem Encodes.eq_encode (h : s.Encodes facts S) (hfacts : facts.Nodup) (hwidth : s.width = facts.length)
    (hbits : ∀ i, s.holds i = true → i < facts.length) : s = encode facts S := by
  have hindex : ∀ {i : Nat} (hi : i < facts.length), facts.idxOf? facts[i] = some i :=
    fun hi => (idxOf?_eq_some_iff_of_nodup hfacts).mpr (List.getElem?_eq_getElem hi)
  have hholds : ∀ i, s.holds i = true ↔ (encode facts S).holds i = true := by
    intro i
    rw [holds_encode]
    constructor
    · intro hi
      have hlt := hbits i hi
      exact ⟨facts[i], (h _ i (hindex hlt)).mp hi, List.getElem?_eq_getElem hlt⟩
    · rintro ⟨f, hf, hget⟩
      obtain ⟨hlt, rfl⟩ := List.getElem?_eq_some_iff.mp hget
      exact (h _ i (hindex hlt)).mpr hf
  obtain ⟨width, bits⟩ := s
  obtain rfl : width = facts.length := hwidth
  exact congrArg (State.mk facts.length) (IndexSet.ext fun i => Bool.eq_iff_iff.mpr (hholds i))

end State

namespace Encoded

theorem lt_length_of_contains_indices {positive : Bool} {k : Nat}
    (h : (indices facts positive literals).contains k = true) : k < facts.length := by
  obtain ⟨f, -, hf⟩ := contains_indices.mp h
  exact (List.getElem?_eq_some_iff.mp (getElem?_of_idxOf? hf)).1

theorem apply_encode (hfacts : facts.Nodup) : (effect facts literals).apply (.encode facts S) =
    .encode facts ((S \ {f | ⟨false, f⟩ ∈ literals}) ∪ {f | ⟨true, f⟩ ∈ literals}) := by
  refine (encodes_apply (State.encodes_encode facts S)).eq_encode hfacts ?_ fun i hi => ?_
  · exact max_eq_left (IndexSet.bound_le fun i hi => lt_length_of_contains_indices hi)
  · rw [Effect.holds_apply, Bool.or_eq_true, Bool.and_eq_true, State.holds_encode] at hi
    rcases hi with ⟨⟨f, -, hf⟩, -⟩ | hi
    · exact (List.getElem?_eq_some_iff.mp hf).1
    · exact lt_length_of_contains_indices hi

theorem ofList_eq_encode (hfacts : facts.Nodup) (init : List Fact) :
    State.ofList facts.length (init.filterMap facts.idxOf?) = .encode facts {f | f ∈ init} := by
  refine (encodes_ofList init).eq_encode hfacts rfl fun i hi => ?_
  rw [State.holds_ofList, List.contains_iff_mem, List.mem_filterMap] at hi
  obtain ⟨f, -, hf⟩ := hi
  exact (List.getElem?_eq_some_iff.mp (getElem?_of_idxOf? hf)).1

/-- The encoded action does on the states of all sets of facts what the ground action does on the sets. -/
structure Action.Represents (facts : List Fact) (e : Action) (a : Schema.Action) : Prop where
  name : e.name = a.name
  args : e.args = a.args
  applicable : ∀ S, e.isApplicable (.encode facts S) = true ↔ a.precondition.Holds [] S
  apply : ∀ S, e.effect.apply (.encode facts S) = .encode facts (a.result S)

structure Method.Represents (facts : List Fact) (e : Method) (m : Schema.Method) : Prop where
  name : e.name = m.name
  args : e.args = m.args
  applicable : ∀ S, e.isApplicable (.encode facts S) = true ↔ m.precondition.Holds [] S

theorem represents_action {tasks : List GroundTask} {a : Schema.Action} (hfacts : facts.Nodup)
    (hprecondition : a.precondition.literals? = some a.precondition.literals)
    (hknown : ∀ l ∈ a.precondition.literals, l.fact ∈ facts)
    (heffect : a.effect.literals? = some a.effectLiterals) : (action facts tasks a).Represents facts a := by
  refine ⟨rfl, rfl, fun S => ?_, fun S => ?_⟩
  · rw [Expr.holds_iff_of_literals? hprecondition]
    exact holds_condition (State.encodes_encode facts S) hknown
  · rw [Schema.Action.result, ← Schema.Action.setOf_added heffect, ← Schema.Action.setOf_deleted heffect]
    exact apply_encode hfacts

theorem represents_method {tasks : List GroundTask} {m : Schema.Method}
    (hprecondition : m.precondition.literals? = some m.precondition.literals)
    (hknown : ∀ l ∈ m.precondition.literals, l.fact ∈ facts) : (method facts tasks m).Represents facts m := by
  refine ⟨rfl, rfl, fun S => ?_⟩
  rw [Expr.holds_iff_of_literals? hprecondition]
  exact holds_condition (State.encodes_encode facts S) hknown

end Encoded

/-- For every set of facts, reachable or not, the encoded actions, methods and goal do on its state what those do
that they were made of, one for one, and the initial state is the one for the initial facts. -/
theorem encoding_faithful {domain : Option Definition.Domain} {problem : Option Definition.Problem}
    {L : LiftedProblem} (h : LiftedProblem.ofDefinitions domain problem = .ok L) :
    ∃ P, ground domain problem = .ok P ∧
      List.Forall₂ (Encoded.Action.Represents P.facts) P.actions
        ((GroundProblem.ofLifted L).relevantActions (GroundProblem.ofLifted L).relevantTasks) ∧
      List.Forall₂ (Encoded.Method.Represents P.facts) P.methods
        ((GroundProblem.ofLifted L).relevantMethods (GroundProblem.ofLifted L).relevantTasks) ∧
      (∀ S, P.goal.holds (.encode P.facts S) = true ↔ (GroundProblem.ofLifted L).goal.Holds [] S) ∧
      P.initialState = .encode P.facts {f | f ∈ (GroundProblem.ofLifted L).init} := by
  have hL := LiftedProblem.wellFormed_of_ofDefinitions h
  refine ⟨.ofGround (.ofLifted L), by rw [ground, h]; rfl, ?_⟩
  generalize hp : GroundProblem.ofLifted L = p
  have hlegible : p.Legible := hp ▸ GroundProblem.legible_ofLifted hL
  have hwell : p.WellFormed := hp ▸ GroundProblem.wellFormed_ofLifted hL
  have hfacts : (p.relevantFacts p.relevantTasks).Nodup := nodup_eraseDups _
  refine ⟨?_, ?_, fun S => ?_, Encoded.ofList_eq_encode hfacts p.init⟩
  · refine List.forall₂_map_left_iff.mpr (List.forall₂_same.mpr fun a ha => ?_)
    have hknown := (GroundProblem.mem_relevantActions.mp ha).1
    exact Encoded.represents_action hfacts (hlegible.precondition a hknown)
      (fun l hl => GroundProblem.fact_mem_of_action ha hl) (hlegible.effect a hknown)
  · refine List.forall₂_map_left_iff.mpr (List.forall₂_same.mpr fun m hm => ?_)
    have hknown := (GroundProblem.mem_relevantMethods.mp hm).1
    exact Encoded.represents_method (hlegible.condition m hknown) fun l hl => GroundProblem.fact_mem_of_method hm hl
  · exact Encoded.holds_goal hwell.goal (State.encodes_encode _ S) fun f hf => GroundProblem.fact_mem_of_goal hf

theorem encoding_faithful_lamp : ∃ P, ground lampDomain lampProblem = .ok P ∧
    ∃ L, LiftedProblem.ofDefinitions lampDomain lampProblem = .ok L ∧
      ∀ S, P.goal.holds (.encode P.facts S) = true ↔ (GroundProblem.ofLifted L).goal.Holds [] S := by
  obtain ⟨L, hL⟩ := exists_ofDefinitions_lamp
  obtain ⟨P, hP, -, -, hgoal, -⟩ := encoding_faithful hL
  exact ⟨P, hP, L, hL, hgoal⟩

end HtnPlanner
