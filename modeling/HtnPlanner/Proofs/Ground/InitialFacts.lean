import HtnPlanner.Proofs.Ground.Exhaustive

/-!
Of the initial facts only the set matters. In which order they are written down, and how often, decides on the rows of
the fact tables, but on nothing that is read off them.
-/

namespace HtnPlanner

/-! ### Bindings -/

namespace Binder

variable {bd bd' : Binder} {parameters : List Nat} {pre : Expr} {todo : List (Nat × Nat)} {binding : List (Option Nat)}

theorem extend_nil_congr (hdomain : bd'.domain = bd.domain) :
    bd'.extend [] todo binding = bd.extend [] todo binding := by
  induction todo generalizing binding with
  | nil => rfl
  | cons q todo ih =>
      obtain ⟨type, slot⟩ := q
      cases hs : binding[slot]?.join with
      | some c =>
          rw [extend, extend, hs]
          exact ih
      | none =>
          rw [extend_nil_cons hs, extend_nil_cons hs, hdomain]
          exact List.flatMap_congr fun c _ => ih

/-- Binders that agree on the domains and on the known values find the same bindings, whatever their tables are. -/
theorem bindings_congr (h : bd.Decides (pre.conjuncts.filterMap Expr.check?) parameters.length)
    (h' : bd'.Decides (pre.conjuncts.filterMap Expr.check?) parameters.length) (hdomain : bd'.domain = bd.domain)
    (hfixed : bd'.fixed = bd.fixed) (hlength : binding.length = parameters.length) :
    bd'.bindings parameters pre binding = bd.bindings parameters pre binding := by
  rw [bindings_eq_filter h' hlength, bindings_eq_filter h hlength, extend_nil_congr hdomain]
  refine List.filter_congr fun b _ => ?_
  rw [isConsistent, isConsistent, hfixed]

end Binder

/-! ### The lifted problem with other initial facts -/

namespace LiftedProblem

variable {p : LiftedProblem} {init : List Fact} {fixed : Fact → Option Bool}

theorem WellFormed.withInit (hp : p.WellFormed) (hinit : ∀ f, f ∈ init ↔ f ∈ p.init) :
    ({ p with init } : LiftedProblem).WellFormed :=
  ⟨hp.settled, fun f hf => hp.init f ((hinit f).mp hf), hp.actions, hp.methods, hp.goal, hp.network⟩

theorem contains_congr (hinit : ∀ f, f ∈ init ↔ f ∈ p.init) (f : Fact) : init.contains f = p.init.contains f := by
  rw [Bool.eq_iff_iff, List.contains_iff_mem, List.contains_iff_mem, hinit]

theorem fixedValue_withInit (hinit : ∀ f, f ∈ init ↔ f ∈ p.init) :
    ({ p with init } : LiftedProblem).fixedValue = p.fixedValue := by
  funext f
  have hvalue : (p.inertia.of f.predicate).fixedValue (init.contains f) =
      (p.inertia.of f.predicate).fixedValue (p.init.contains f) := by rw [contains_congr hinit]
  exact hvalue

theorem bindings_withInit (hp : p.WellFormed) (hinit : ∀ f, f ∈ init ↔ f ∈ p.init)
    (hfixed : ∀ f, p.fixedValue f = some false → fixed f = some false) {parameters : List Nat} {v : Expr}
    (hv : v.Fits p.symbols parameters.length) {binding : List (Option Nat)}
    (hlength : binding.length = parameters.length) :
    (({ p with init } : LiftedProblem).binder fixed).bindings parameters v binding =
      (p.binder fixed).bindings parameters v binding := by
  have hfixed' : ∀ f, ({ p with init } : LiftedProblem).fixedValue f = some false → fixed f = some false := by
    rwa [fixedValue_withInit hinit]
  exact Binder.bindings_congr (decides_binder hp hfixed hv) (decides_binder (hp.withInit hinit) hfixed' hv) rfl rfl
    hlength

theorem groundActions_withInit (hp : p.WellFormed) (hinit : ∀ f, f ∈ init ↔ f ∈ p.init) :
    ({ p with init } : LiftedProblem).groundActions = p.groundActions := by
  rw [groundActions, groundActions, fixedValue_withInit hinit]
  congr 1
  apply List.flatMap_congr
  intro a ha
  apply List.flatMap_congr
  intro v hv
  have hfits := (Expr.Over.of_mem_variants (hp.actions a ha).precondition hv).2
  rw [Binder.actionInstances, Binder.actionInstances,
    bindings_withInit hp hinit (fun _ hf => hf) hfits (List.length_replicate ..)]
  rfl

theorem methodsOf_withInit (hp : p.WellFormed) (hinit : ∀ f, f ∈ init ↔ f ∈ p.init)
    (hfixed : ∀ f, p.fixedValue f = some false → fixed f = some false) (t : GroundTask) :
    (({ p with init } : LiftedProblem).binder fixed).methodsOf p.symbols p.methods t =
      (p.binder fixed).methodsOf p.symbols p.methods t := by
  apply List.flatMap_congr
  intro m hm
  apply List.flatMap_congr
  intro v hv
  have hfits := (Expr.Over.of_mem_variants (hp.methods m (List.mem_filter.mp hm).1).precondition hv).2
  rw [Binder.methodInstances, Binder.methodInstances]
  split
  · next binding hunify =>
      have hlength := (Symbols.foldlM_bindArg (List.length_replicate ..) Symbols.typedBinding_unbound hunify).1
      rw [bindings_withInit hp hinit hfixed hfits hlength]
      rfl
  · rfl

theorem groundMethods_withInit (hp : p.WellFormed) (hinit : ∀ f, f ∈ init ↔ f ∈ p.init)
    (hfixed : ∀ f, p.fixedValue f = some false → fixed f = some false) :
    ({ p with init } : LiftedProblem).groundMethods fixed = p.groundMethods fixed := by
  have hmethods := funext (methodsOf_withInit hp hinit hfixed)
  simp only [groundMethods, compoundTasks, hmethods]
  rfl

theorem fixedValue_factInertia_withInit (hinit : ∀ f, f ∈ init ↔ f ∈ p.init) :
    ({ p.factInertia with init } : FactInertia).fixedValue = p.factInertia.fixedValue := by
  funext f
  have hvalue : (p.factInertia.of f).fixedValue (init.contains f) =
      (p.factInertia.of f).fixedValue (p.init.contains f) := by rw [contains_congr hinit]
  exact hvalue

end LiftedProblem

namespace GroundProblem

theorem ofLifted_withInit {p : LiftedProblem} (hp : p.WellFormed) {init : List Fact}
    (hinit : ∀ f, f ∈ init ↔ f ∈ p.init) :
    ofLifted { p with init } = { ofLifted p with init, inertia := { p.factInertia with init } } := by
  have hinertia : FactInertia.ofActions p.groundActions init = { p.factInertia with init } := rfl
  have hgoal : ({ p with init } : LiftedProblem).groundGoal = p.groundGoal := by
    rw [LiftedProblem.groundGoal, LiftedProblem.fixedValue_withInit hinit]
    rfl
  have hrefines : ∀ f, p.fixedValue f = some false → p.factInertia.fixedValue f = some false := fun f =>
    LiftedProblem.factInertia_refines hp (LiftedProblem.instantiates_groundActions hp)
  have hmethods := LiftedProblem.groundMethods_withInit hp hinit hrefines
  simp only [ofLifted, LiftedProblem.groundActions_withInit hp hinit, hinertia,
    LiftedProblem.fixedValue_factInertia_withInit hinit, hmethods, hgoal]
  rfl

/-- The numbers of facts and tasks do not depend on the initial facts, and the initial state is a set. -/
theorem ofGround_withInit {p : GroundProblem} {init : List Fact} (hinit : ∀ f, f ∈ init ↔ f ∈ p.init)
    (inertia : FactInertia) :
    EncodedProblem.ofGround { p with init, inertia } = EncodedProblem.ofGround p := by
  have hstate : ∀ facts : List Fact, State.ofList facts.length (init.filterMap facts.idxOf?) =
      State.ofList facts.length (p.init.filterMap facts.idxOf?) := by
    intro facts
    rw [State.ofList, State.ofList]
    congr 1
    apply IndexSet.ext
    intro i
    rw [Bool.eq_iff_iff]
    simp [hinit]
  have hrelevant := hstate (p.relevantFacts p.relevantTasks)
  simp only [EncodedProblem.ofGround]
  congr 1

end GroundProblem

/-! ### Names -/

section

variable {domain : Definition.Domain} {problem : Definition.Problem} {init init' : List (Definition.Atom String)}

theorem initialFacts_congr {s : Symbols} (hinit : ∀ a, a ∈ init' ↔ a ∈ init) {facts : List Fact}
    (h : initialFacts s init = .ok facts) :
    ∃ facts', initialFacts s init' = .ok facts' ∧ ∀ f, f ∈ facts' ↔ f ∈ facts := by
  obtain ⟨fs, hfs, rfl⟩ := Except.map_eq_ok.mp h
  obtain ⟨fs', hfs'⟩ : ∃ fs', init'.mapM (initialFact s) = .ok fs' := by
    apply Except.exists_mapM_eq_ok
    intro a ha
    obtain ⟨f, -, hf⟩ := Except.exists_of_mapM_eq_ok hfs ((hinit a).mp ha)
    exact ⟨f, hf⟩
  have hmem : ∀ {as : List (Definition.Atom String)} {gs : List Fact}, as.mapM (initialFact s) = .ok gs →
      ∀ f, f ∈ gs ↔ ∃ a ∈ as, initialFact s a = .ok f := by
    intro as gs hgs f
    refine ⟨(Except.mapM_eq_ok hgs).2 f, ?_⟩
    rintro ⟨a, ha, hf⟩
    obtain ⟨g, hg, hag⟩ := Except.exists_of_mapM_eq_ok hgs ha
    exact Except.ok.inj (hag.symm.trans hf) ▸ hg
  refine ⟨fs'.eraseDups, Except.map_eq_ok.mpr ⟨fs', hfs', rfl⟩, fun f => ?_⟩
  simp only [List.mem_eraseDups, hmem hfs, hmem hfs', hinit]

theorem Naming.problem_withInit (hinit : ∀ a, a ∈ init ↔ a ∈ problem.init) {s s' : Symbols} {L : LiftedProblem}
    (h : Naming.problem domain problem s = .ok (L, s')) :
    ∃ facts, Naming.problem domain { problem with init } s = .ok ({ L with init := facts }, s') ∧
      ∀ f, f ∈ facts ↔ f ∈ L.init := by
  obtain ⟨hs, s₁, s₂, hparts⟩ := problem_eq_ok.mp h
  obtain ⟨facts, hfacts, hsame⟩ := initialFacts_congr hinit hparts.init
  refine ⟨facts, problem_eq_ok.mpr ⟨hs, s₁, s₂, ?_⟩, hsame⟩
  exact ⟨hparts.declared, hparts.actions, hparts.methods, hfacts, hparts.goal, hparts.network, hparts.domainName,
    hparts.problemName⟩

theorem ground_withInit (hinit : ∀ a, a ∈ init ↔ a ∈ problem.init) {P : EncodedProblem}
    (h : ground domain problem = .ok P) : ground domain (some { problem with init }) = .ok P := by
  obtain ⟨L, hL, rfl⟩ := Except.map_eq_ok.mp h
  have hp := LiftedProblem.wellFormed_of_ofDefinitions hL
  obtain ⟨⟨_, s⟩, hrun, rfl⟩ := Except.map_eq_ok.mp hL
  obtain ⟨facts, hrun', hfacts⟩ := Naming.problem_withInit hinit hrun
  refine Except.map_eq_ok.mpr ⟨_, Except.map_eq_ok.mpr ⟨_, hrun', rfl⟩, ?_⟩
  rw [GroundProblem.ofLifted_withInit hp hfacts]
  exact GroundProblem.ofGround_withInit hfacts _

/-- Two problems whose initial facts are the same up to order and repetition become one and the same problem, or both
of them are refused. -/
theorem ground_eq_of_same_init {problem' : Definition.Problem}
    (hsame : problem' = { problem with init := problem'.init }) (hinit : ∀ a, a ∈ problem'.init ↔ a ∈ problem.init) :
    (∃ P, ground domain problem = .ok P ∧ ground domain problem' = .ok P) ∨
      ∃ e e', ground domain problem = .error e ∧ ground domain problem' = .error e' := by
  have hback : problem = { problem' with init := problem.init } := by rw [hsame]
  cases h : ground domain problem with
  | ok P =>
      refine Or.inl ⟨P, rfl, ?_⟩
      rw [hsame]
      exact ground_withInit hinit h
  | error e =>
      cases h' : ground domain problem' with
      | error e' => exact Or.inr ⟨e, e', rfl, rfl⟩
      | ok P =>
          have hback' := ground_withInit (fun a => (hinit a).symm) h'
          rw [← hback, h] at hback'
          cases hback'

end

def poweredProblem : Definition.Problem :=
  { lampProblem with init := [⟨"powered", []⟩, ⟨"lit", ["desk"]⟩, ⟨"lit", ["floor"]⟩] }

/-- The same facts from the last to the first, and one of them once more. -/
def repeatedProblem : Definition.Problem :=
  { lampProblem with init := [⟨"lit", ["floor"]⟩, ⟨"lit", ["desk"]⟩, ⟨"powered", []⟩, ⟨"lit", ["floor"]⟩] }

theorem ground_eq_of_same_init_lamp :
    repeatedProblem = { poweredProblem with init := repeatedProblem.init } ∧
    (∀ a, a ∈ repeatedProblem.init ↔ a ∈ poweredProblem.init) ∧
    ∃ P, ground lampDomain poweredProblem = .ok P ∧ ground lampDomain repeatedProblem = .ok P := by
  have hinit : ∀ a, a ∈ repeatedProblem.init ↔ a ∈ poweredProblem.init := by
    intro a
    simp only [repeatedProblem, poweredProblem, List.mem_cons]
    tauto
  refine ⟨rfl, hinit, ?_⟩
  obtain ⟨P, hP, -⟩ : ∃ P, ground lampDomain poweredProblem = .ok P ∧ True := exists_ok_of_any (by decide +kernel)
  rcases ground_eq_of_same_init rfl hinit with h | ⟨e, -, he, -⟩
  · exact h
  · rw [hP] at he
    cases he

end HtnPlanner
