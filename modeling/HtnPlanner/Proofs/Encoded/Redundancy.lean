import HtnPlanner.Proofs.Encoded.TotalOrder
import HtnPlanner.Proofs.Encoded.UpToOrder

/-!
An operator that is there twice is tried twice, and it is there twice only where two ground operators are the same up to
order.
-/

namespace HtnPlanner

namespace EncodedProblem

variable {p : EncodedProblem} {s t : Situation} {o o' : Operator} {position : Nat}

/-- All that an operator is, whatever its index. -/
def content? (p : EncodedProblem) : Operator → Option (Encoded.Action ⊕ Encoded.Method)
  | .action i => p.actions[i]?.map .inl
  | .method i => p.methods[i]?.map .inr

/-- The same operator is there once more. -/
def IsRepeated (p : EncodedProblem) (o : Operator) : Prop := ∃ o', o' ≠ o ∧ p.content? o' = p.content? o

theorem taskOf?_eq (p : EncodedProblem) (o : Operator) :
    p.taskOf? o = (p.content? o).map (Sum.elim (·.task) (·.task)) := by
  cases o <;> rw [taskOf?, content?, Option.map_map] <;> rfl

theorem isApplicable_eq (p : EncodedProblem) (s : State) (o : Operator) :
    p.isApplicable s o = (p.content? o).any (Sum.elim (·.isApplicable s) (·.isApplicable s)) := by
  cases o <;> rw [isApplicable, content?, Option.any_map] <;> rfl

theorem apply_eq (p : EncodedProblem) (s : Situation) (position : Nat) (o : Operator) :
    p.apply s position o = (p.content? o).elim s (Sum.elim
      (fun a => ⟨a.effect.apply s.state, s.network.remove position⟩)
      fun m => { s with network := s.network.decompose position m.subtasks m.order }) := by
  cases o <;> rw [apply, content?, Option.elim_map] <;> rfl

/-- What is the same operator is tried at the same places, with the same outcome. -/
theorem mem_successorsAt_of_content?_eq (hconsistent : p.Consistent) (hcomplete : p.Complete)
    (h : ⟨o, t⟩ ∈ p.successorsAt s position) (hcontent : p.content? o' = p.content? o) :
    ⟨o', t⟩ ∈ p.successorsAt s position := by
  obtain ⟨k, hk, ho, happlicable, rfl⟩ := mem_successorsAt_iff.mp h
  refine mem_successorsAt_iff.mpr ⟨k, hk, hcomplete k o' ?_, ?_, ?_⟩
  · rw [taskOf?_eq, hcontent, ← taskOf?_eq, hconsistent k o ho]
  · rw [isApplicable_eq, hcontent, ← isApplicable_eq, happlicable]
  · rw [apply_eq, apply_eq, hcontent]

theorem Indexed.nodup_contents_iff (h : p.Indexed) (hconsistent : p.Consistent) (hcomplete : p.Complete)
    (hs : s.WellFormed p) (position : Nat) : ((p.successorsAt s position).map fun x => p.content? x.operator).Nodup ↔
      ∀ x ∈ p.successorsAt s position, ¬ p.IsRepeated x.operator := by
  have hcontents : (p.successorsAt s position).map (fun x => p.content? x.operator) =
      ((p.successorsAt s position).map (·.operator)).map p.content? := by
    rw [List.map_map]
    rfl
  rw [hcontents, List.nodup_map_iff_inj_on (h.nodup_successorsAt hs position)]
  constructor
  · rintro hinj x hx ⟨o, hne, hcontent⟩
    have ho := mem_successorsAt_of_content?_eq hconsistent hcomplete hx hcontent
    exact hne (hinj o (List.mem_map_of_mem ho) _ (List.mem_map_of_mem hx) hcontent)
  · intro hunique o ho o' ho' hcontent
    obtain ⟨x, hx, rfl⟩ := List.mem_map.mp ho'
    by_contra hne
    exact hunique x hx ⟨o, hne, hcontent⟩

theorem content?_eq_action {a : Encoded.Action} :
    p.content? o = some (.inl a) ↔ ∃ i, o = .action i ∧ p.actions[i]? = some a := by
  cases o <;> simp [content?]

theorem content?_eq_method {m : Encoded.Method} :
    p.content? o = some (.inr m) ↔ ∃ i, o = .method i ∧ p.methods[i]? = some m := by
  cases o <;> simp [content?]

theorem content?_inj (hactions : p.actions.Nodup) (hmethods : p.methods.Nodup) {c : Encoded.Action ⊕ Encoded.Method}
    (h : p.content? o = some c) (h' : p.content? o' = some c) : o = o' := by
  cases c with
  | inl a =>
      obtain ⟨i, rfl, hi⟩ := content?_eq_action.mp h
      obtain ⟨j, rfl, hj⟩ := content?_eq_action.mp h'
      have hlt := (List.getElem?_eq_some_iff.mp hi).1
      exact congrArg Operator.action ((List.getElem?_inj hlt hactions).mp (hi.trans hj.symm))
  | inr m =>
      obtain ⟨i, rfl, hi⟩ := content?_eq_method.mp h
      obtain ⟨j, rfl, hj⟩ := content?_eq_method.mp h'
      have hlt := (List.getElem?_eq_some_iff.mp hi).1
      exact congrArg Operator.method ((List.getElem?_inj hlt hmethods).mp (hi.trans hj.symm))

theorem not_isRepeated (hactions : p.actions.Nodup) (hmethods : p.methods.Nodup) (ho : p.knows o = true) :
    ¬ p.IsRepeated o := by
  rintro ⟨o', hne, hcontent⟩
  rw [knows, taskOf?_eq, Option.isSome_map] at ho
  obtain ⟨c, hc⟩ := Option.isSome_iff_exists.mp ho
  exact hne (content?_inj hactions hmethods (hcontent.trans hc) hc)

end EncodedProblem

/-- No two ground operators are equal and no condition of one repeats a literal. An operator is encoded twice if, and
only if, there are two that are the same up to order. Where all names are different, these come from one action or
method and differ in the order of the literals in their conditions, for which there must be alternatives in the
condition that is declared. What is encoded twice is tried twice wherever it is tried, with the same outcome, and
nothing else is. -/
theorem ground_repetitions {domain : Option Definition.Domain} {problem : Option Definition.Problem}
    {P : EncodedProblem} (h : ground domain problem = .ok P) :
    ∃ L, LiftedProblem.ofDefinitions domain problem = .ok L ∧
      let p := GroundProblem.ofLifted L
      let actions := p.relevantActions p.relevantTasks
      let methods := p.relevantMethods p.relevantTasks
      (actions.Nodup ∧ ∀ a ∈ actions, a.precondition.literals.Nodup) ∧
      (methods.Nodup ∧ ∀ m ∈ methods, m.precondition.literals.Nodup) ∧
      (P.actions.Nodup ↔ ∀ a ∈ actions, ∀ b ∈ actions, a.SameUpToOrder b → a = b) ∧
      (P.methods.Nodup ↔ ∀ m ∈ methods, ∀ n ∈ methods, m.SameUpToOrder n → m = n) ∧
      ((L.actions.map (·.name)).Nodup →
        (P.actions.Nodup ↔ ∀ a ∈ actions, ∀ b ∈ actions, a.name = b.name → a.args = b.args →
          a.precondition.literals.Perm b.precondition.literals →
            a.precondition.literals = b.precondition.literals) ∧
        ((∀ a ∈ L.actions, ∀ v ∈ a.precondition.variants, ∀ w ∈ a.precondition.variants, v = w) → P.actions.Nodup)) ∧
      ((L.methods.map (·.name)).Nodup →
        (P.methods.Nodup ↔ ∀ m ∈ methods, ∀ n ∈ methods, m.name = n.name → m.args = n.args →
          m.precondition.literals.Perm n.precondition.literals →
            m.precondition.literals = n.precondition.literals) ∧
        ((∀ m ∈ L.methods, ∀ v ∈ m.precondition.variants, ∀ w ∈ m.precondition.variants, v = w) → P.methods.Nodup)) ∧
      ∀ s, P.Reachable s → ∀ position,
        (((P.successorsAt s position).map fun x => P.content? x.operator).Nodup ↔
          ∀ x ∈ P.successorsAt s position, ¬ P.IsRepeated x.operator) ∧
        (∀ x ∈ P.successorsAt s position, ∀ o, P.content? o = P.content? x.operator →
          ⟨o, x.situation⟩ ∈ P.successorsAt s position) ∧
        (P.actions.Nodup → P.methods.Nodup →
          ((P.successorsAt s position).map fun x => P.content? x.operator).Nodup) := by
  have hindexed := EncodedProblem.indexed_of_ground h
  have hordered := EncodedProblem.ordered_of_ground h
  obtain ⟨L, hL, rfl⟩ := Except.map_eq_ok.mp h
  have hwell := LiftedProblem.wellFormed_of_ofDefinitions hL
  have hconsistent := GroundProblem.consistent_ofGround (GroundProblem.wellFormed_ofLifted hwell)
  have hcomplete := GroundProblem.complete_ofGround (GroundProblem.wellFormed_ofLifted hwell)
  refine ⟨L, hL, ⟨GroundProblem.nodup_relevantActions L _, fun a ha => ?_⟩,
    ⟨GroundProblem.nodup_relevantMethods L _, fun m hm => ?_⟩, GroundProblem.nodup_actions_iff hwell,
    GroundProblem.nodup_methods_iff hwell,
    fun hnames => ⟨GroundProblem.nodup_actions_iff_of_names hwell hnames,
      GroundProblem.nodup_actions_of_variants hwell hnames⟩,
    fun hnames => ⟨GroundProblem.nodup_methods_iff_of_names hwell hnames,
      GroundProblem.nodup_methods_of_variants hwell hnames⟩, fun s hs position => ?_⟩
  · exact LiftedProblem.nodup_literals_action hwell (GroundProblem.mem_relevantActions.mp ha).1
  · exact LiftedProblem.nodup_literals_method hwell (GroundProblem.mem_relevantMethods.mp hm).1
  · have hcontents := hindexed.nodup_contents_iff hconsistent hcomplete (hs.wellFormed hindexed hordered) position
    refine ⟨hcontents, fun x hx o ho => ?_, fun hactions hmethods => hcontents.mpr fun x hx => ?_⟩
    · exact EncodedProblem.mem_successorsAt_of_content?_eq hconsistent hcomplete hx ho
    · obtain ⟨k, -, ho, -, -⟩ := EncodedProblem.mem_successorsAt_iff.mp hx
      have hknown := Option.isSome_iff_exists.mpr ⟨k, hconsistent k _ ho⟩
      exact EncodedProblem.not_isRepeated hactions hmethods hknown

/-- The lamp that is on may be switched as well, which is not the same action. -/
theorem ground_repetitions_lamp : ∃ P, ground lampDomain lampProblem = .ok P ∧ P.actions.Nodup ∧ P.methods.Nodup ∧
    ∀ s, P.Reachable s → ∀ position, ((P.successorsAt s position).map fun x => P.content? x.operator).Nodup := by
  obtain ⟨P, hP, hactions, hmethods⟩ : ∃ P, ground lampDomain lampProblem = .ok P ∧ P.actions.Nodup ∧
      P.methods.Nodup := exists_ground_of_any (by decide +kernel)
  obtain ⟨L, -, -, -, -, -, -, -, hsearch⟩ := ground_repetitions hP
  exact ⟨P, hP, hactions, hmethods, fun s hs position => (hsearch s hs position).2.2 hactions hmethods⟩

/-- Tea is served when it is hot and sweet, or sweet and hot. -/
def teaCondition : Definition.Formula :=
  .disj [.conj [.atom ⟨"hot", []⟩, .atom ⟨"sweet", []⟩], .conj [.atom ⟨"sweet", []⟩, .atom ⟨"hot", []⟩]]

def teaDomain : Definition.Domain where
  name := "tea"
  predicates := [⟨"hot", []⟩, ⟨"sweet", []⟩]
  tasks := [⟨"host", []⟩]
  actions := [
    { name := "serve", preconditions := [teaCondition],
      effects := [.delete ⟨"hot", []⟩, .delete ⟨"sweet", []⟩] }]
  methods := [
    { name := "welcome", task := ⟨"host", []⟩, preconditions := [teaCondition],
      network := .ordered [{ task := ⟨"serve", []⟩ }] }]

def teaProblem : Definition.Problem where
  name := "one guest"
  domain := "tea"
  init := [⟨"hot", []⟩, ⟨"sweet", []⟩]
  htn := { subtasks := [{ task := ⟨"host", []⟩ }] }

/-- The two ways to put the condition are compared as they are written, and encoded as the same set. -/
theorem ground_repeats_tea : ∃ P, ground teaDomain teaProblem = .ok P ∧ ¬ P.actions.Nodup ∧ ¬ P.methods.Nodup ∧
    ∃ s, P.Reachable s ∧ ∃ position, ¬ ((P.successorsAt s position).map fun x => P.content? x.operator).Nodup := by
  obtain ⟨P, hP, hactions, hmethods, htwice⟩ : ∃ P, ground teaDomain teaProblem = .ok P ∧ ¬ P.actions.Nodup ∧
      ¬ P.methods.Nodup ∧ ¬ ((P.successorsAt P.initial 0).map fun x => P.content? x.operator).Nodup :=
    exists_ground_of_any (by decide +kernel)
  exact ⟨P, hP, hactions, hmethods, P.initial, EncodedProblem.reachable_initial, 0, htwice⟩

end HtnPlanner
