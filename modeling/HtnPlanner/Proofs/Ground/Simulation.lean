import HtnPlanner.Proofs.Ground.Inertia

/-!
As long as every known value is right, a world can be left by the same steps with the lifted actions and
methods as with the ground ones.
-/

namespace HtnPlanner

variable {p : LiftedProblem} {w w' : World} {l : Label} {b : List Nat}

theorem Schema.Action.simplify?_eq_some {fixed : Fact → Option Bool} {a a' : Schema.Action} :
    a'.simplify? fixed = some a ↔ a'.precondition.assign fixed ≠ .bottom ∧
      a = { a' with
        precondition := a'.precondition.assign fixed
        effect := .conj ((a'.effectLiterals.filter fun l => (fixed l.fact).isNone).map Expr.ofLiteral) } := by
  simp only [simplify?]
  cases a'.precondition.assign fixed <;> simp [eq_comm (a := a)]

theorem Schema.Action.effectLiterals_simplify? {fixed : Fact → Option Bool} {a a' : Schema.Action}
    (h : a'.simplify? fixed = some a) : a.effect.literals? = some a.effectLiterals ∧
      a.effectLiterals = a'.effectLiterals.filter fun l => (fixed l.fact).isNone := by
  have hread : a.effect.literals? = some (a'.effectLiterals.filter fun l => (fixed l.fact).isNone) := by
    obtain ⟨-, rfl⟩ := simplify?_eq_some.mp h
    exact Expr.literals?_conj_ofLiteral _
  rw [effectLiterals, Expr.literals, hread, Option.getD_some]
  exact ⟨rfl, rfl⟩

theorem mem_simplifyActions {fixed : Fact → Option Bool} {actions : List Schema.Action} {a : Schema.Action} :
    a ∈ simplifyActions fixed actions ↔ ∃ a' ∈ actions, a'.simplify? fixed = some a := by
  simp only [simplifyActions, List.mem_eraseDups, List.mem_filterMap]

namespace LiftedProblem

/-- The instance of an action in the ground problem. -/
structure IsGroundAction (p : LiftedProblem) (a : Schema.Action) (b : List Nat) (pre : Expr) (a' : Schema.Action) :
    Prop where
  known : a ∈ p.actions
  accepts : p.Accepts a.parameters b
  variant : Expr.IsInstance p.fixedValue a.precondition b pre
  found : { a.instantiate b with precondition := pre } ∈ p.groundActions
  name : a'.name = a.name
  task : a'.groundTask = ⟨a.task, b⟩
  precondition : a'.precondition = pre.assign p.factInertia.fixedValue
  effect : ∀ l, l ∈ a'.effectLiterals ↔
    l ∈ (a.effect.subst b).literals ∧ p.factInertia.fixedValue l.fact = none

theorem isGroundAction_simplified {a : Schema.Action} {pre : Expr} (known : a ∈ p.actions)
    (accepts : p.Accepts a.parameters b) (hpre : Expr.IsInstance p.fixedValue a.precondition b pre)
    (found : { a.instantiate b with precondition := pre } ∈ p.groundActions) :
    p.IsGroundAction a b pre
      { a.instantiate b with
        precondition := pre.assign p.factInertia.fixedValue
        effect := .conj (((a.effect.subst b).literals.filter fun l =>
          (p.factInertia.fixedValue l.fact).isNone).map Expr.ofLiteral) } := by
  refine ⟨known, accepts, hpre, found, rfl, rfl, rfl, fun l => ?_⟩
  rw [Schema.Action.effectLiterals, Expr.literals_conj_ofLiteral, List.mem_filter, Option.isNone_iff_eq_none]

theorem exists_isGroundAction (hp : p.WellFormed) {a' : Schema.Action}
    (h : a' ∈ (GroundProblem.ofLifted p).actions) : ∃ a b pre, p.IsGroundAction a b pre a' := by
  obtain ⟨a₀, h₀, hsimplify⟩ := mem_simplifyActions.mp h
  obtain ⟨-, rfl⟩ := Schema.Action.simplify?_eq_some.mp hsimplify
  obtain ⟨a, ha, b, pre, hb, hpre, rfl⟩ := of_mem_groundActions hp h₀
  exact ⟨a, b, pre, isGroundAction_simplified ha hb hpre h₀⟩

/-- What steps rely on: known values are right, and methods were bound for the compound tasks. -/
structure Tracks (p : LiftedProblem) (w : World) : Prop where
  fixed : Expr.Agrees p.fixedValue w.facts
  inertia : Expr.Agrees p.factInertia.fixedValue w.facts
  compound : ∀ t ∈ w.network.tasks, p.symbols.isPrimitive t.symbol = false →
    t ∈ p.compoundTasks (p.binder p.factInertia.fixedValue)

namespace IsGroundAction

variable {a a' : Schema.Action} {pre : Expr} (h : p.IsGroundAction a b pre a') (hp : p.WellFormed)

include h hp

omit hp in
theorem length : b.length = a.parameters.length := (accepts_iff.mp h.accepts).1

theorem holds_iff (hw : p.Tracks w) (hne : a'.precondition ≠ .bottom) :
    (∀ l ∈ a'.precondition.literals, l.Holds w.facts) ↔ pre.Holds [] w.facts := by
  have hfits := (hp.actions a h.known).precondition
  rw [← h.length] at hfits
  obtain ⟨hclause, hground⟩ := h.variant.isClause hfits
  have hclause' : a'.precondition.IsClause := by
    rw [h.precondition] at hne ⊢
    exact (hclause.assign _).resolve_left hne
  have hground' : a'.precondition.IsGround := by
    rw [h.precondition]
    exact hground.assign _
  rw [← Expr.holds_iff_literals (b := []) hclause' hground', h.precondition, Expr.holds_assign hw.inertia]

theorem effect_iff (positive : Bool) {f : Fact} :
    ⟨positive, f⟩ ∈ (a.effect.subst b).literals ↔ f ∈ if positive then a.adds b else a.deletes b := by
  have hinstance := instantiates_groundActions hp _ h.found
  rw [← Schema.Action.adds_instantiate a b pre, ← Schema.Action.deletes_instantiate a b pre]
  exact Schema.Action.mem_effectLiterals (hinstance.literals?_effect hp)

theorem keeps : Keeps p.factInertia.fixedValue (a.adds b) (a.deletes b) := by
  rw [← Schema.Action.adds_instantiate a b pre, ← Schema.Action.deletes_instantiate a b pre]
  exact keeps_factInertia hp (instantiates_groundActions hp) _ h.found

/-- Leaving out effects on facts whose value is known makes no difference. -/
theorem facts_eq (hw : p.Tracks w) :
    (w.facts \ {f | ⟨false, f⟩ ∈ a'.effectLiterals}) ∪ {f | ⟨true, f⟩ ∈ a'.effectLiterals} =
      (w.facts \ a.deletes b) ∪ a.adds b := by
  rw [← (h.keeps hp).apply_eq hw.inertia]
  have hadds : {f | ⟨true, f⟩ ∈ a'.effectLiterals} = {f | f ∈ a.adds b ∧ p.factInertia.fixedValue f = none} := by
    ext f
    rw [Set.mem_ofPred_eq, h.effect, h.effect_iff hp]
    rfl
  have hdeletes : {f | ⟨false, f⟩ ∈ a'.effectLiterals} =
      {f | f ∈ a.deletes b ∧ p.factInertia.fixedValue f = none} := by
    ext f
    rw [Set.mem_ofPred_eq, h.effect, h.effect_iff hp]
    rfl
  rw [hadds, hdeletes]

end IsGroundAction

/-- The methods of the ground problem before those are dropped that lead nowhere. -/
def boundMethods (p : LiftedProblem) : List Schema.Method := p.groundMethods p.factInertia.fixedValue

theorem literals_hold_iff {e e' : Expr} {n : Nat} {S : Set Fact} {fixed : Fact → Option Bool}
    (hfits : e.Fits p.symbols n) (hb : b.length = n) (h : Expr.IsInstance fixed e b e') :
    (∀ l ∈ e'.literals, l.Holds S) ↔ e'.Holds [] S := by
  rw [← hb] at hfits
  obtain ⟨hclause, hground⟩ := h.isClause hfits
  exact (Expr.holds_iff_literals hclause hground).symm

theorem ground_step_of_step (hp : p.WellFormed) (hw : p.Tracks w) (h : p.Step w l w') :
    Ground.Step (GroundProblem.ofLifted p).actions p.boundMethods w l w' := by
  cases h with
  | @action position t a next task primitive known symbol accepts applicable =>
      obtain ⟨pre, hinstance, hholds, hfound⟩ := exists_mem_groundActions hp hw.fixed known accepts applicable
      have hground := isGroundAction_simplified known accepts hinstance hfound
      have hne : pre.assign p.factInertia.fixedValue ≠ .bottom := by
        intro hbottom
        have hassign := (Expr.holds_assign hw.inertia pre).mpr hholds
        rw [hbottom] at hassign
        exact hassign
      have hmem := mem_simplifyActions.mpr ⟨_, hfound, Schema.Action.simplify?_eq_some.mpr ⟨hne, rfl⟩⟩
      rw [← hground.facts_eq hp hw]
      have htask : t = ⟨a.task, t.args⟩ := by rw [symbol]
      refine Ground.Step.action next ?_ hmem ((hground.holds_iff hp hw hne).mpr hholds)
      exact task.trans (congrArg some htask)
  | @method position t m b subtasks next task compound known accepts decomposes applicable instances =>
      have ht := hw.compound t (List.mem_of_getElem? task) compound
      have hfits := ((compoundTasks_spec hp _).1 t ht).1
      obtain ⟨pre, hinstance, hholds, hfound⟩ :=
        exists_mem_methodsOf hp hw.fixed hw.inertia hfits known accepts decomposes applicable
      have hsubtasks : ({ m.instantiate b with precondition := pre } : Schema.Method).subtasks = subtasks := by
        simp [Schema.Method.subtasks, Schema.Method.instantiate, Schema.Network.groundTasks, instances]
      have hstep : Ground.Step (GroundProblem.ofLifted p).actions p.boundMethods w _ _ := .method
        (m := { m.instantiate b with precondition := pre }) next task decomposes
        (mem_groundMethods.mpr ⟨t, ht, hfound⟩)
        ((literals_hold_iff (hp.methods m known).precondition (accepts_iff.mp accepts).1 hinstance).mpr hholds)
      rw [hsubtasks] at hstep
      exact hstep

theorem step_of_ground_step (hp : p.WellFormed) (hw : p.Tracks w)
    (h : Ground.Step (GroundProblem.ofLifted p).actions p.boundMethods w l w') : p.Step w l w' := by
  cases h with
  | @action position a' next task known applicable =>
      obtain ⟨a, b, pre, hground⟩ := exists_isGroundAction hp known
      have hne : a'.precondition ≠ .bottom := by
        obtain ⟨_, -, hsimplify⟩ := mem_simplifyActions.mp known
        obtain ⟨hne, rfl⟩ := Schema.Action.simplify?_eq_some.mp hsimplify
        exact hne
      have hpre := (hground.holds_iff hp hw hne).mp applicable
      have hstep : p.Step w (.action a.name b)
          ⟨(w.facts \ a.deletes b) ∪ a.adds b, w.network.remove position⟩ :=
        Step.action next (task.trans (congrArg some hground.task)) (hp.actions a hground.known).primitive
          hground.known rfl hground.accepts (hground.variant.holds hw.fixed hpre)
      have hargs : a'.args = b := congrArg GroundTask.args hground.task
      rw [← hground.facts_eq hp hw, ← hground.name, ← hargs] at hstep
      exact hstep
  | @method position t m' next task decomposes known applicable =>
      obtain ⟨u, hu, hmem⟩ := mem_groundMethods.mp known
      obtain ⟨hfits, hcompound⟩ := (compoundTasks_spec hp _).1 u hu
      obtain ⟨hsubtasks, -⟩ := subtasks_of_mem_methodsOf hp hfits hmem
      obtain ⟨m, hm, b, pre, hb, htask, hinstance, rfl⟩ := of_mem_methodsOf hp hfits hmem
      obtain rfl : u = t := Option.some.inj (htask.symm.trans decomposes)
      have hpre := (literals_hold_iff (hp.methods m hm).precondition (accepts_iff.mp hb).1 hinstance).mp applicable
      exact Step.method (m := m) next task hcompound hm hb htask (hinstance.holds hw.inertia hpre) hsubtasks

theorem Tracks.step (hp : p.WellFormed) (hw : p.Tracks w) (h : p.Step w l w') : p.Tracks w' := by
  have hground := ground_step_of_step hp hw h
  cases h with
  | @action position t a next task primitive known symbol accepts applicable =>
      obtain ⟨pre, hinstance, hholds, hfound⟩ := exists_mem_groundActions hp hw.fixed known accepts applicable
      have hground := isGroundAction_simplified known accepts hinstance hfound
      refine ⟨(keeps_fixedValue hp known).agrees hw.fixed, (hground.keeps hp).agrees hw.inertia, ?_⟩
      exact fun u hu => hw.compound u (List.mem_of_mem_eraseIdx hu)
  | @method position t m b subtasks next task compound known accepts decomposes applicable instances =>
      refine ⟨hw.fixed, hw.inertia, fun u hu hcompound => ?_⟩
      rcases List.mem_append.mp hu with hu | hu
      · exact hw.compound u (List.mem_of_mem_eraseIdx hu) hcompound
      · have ht := hw.compound t (List.mem_of_getElem? task) compound
        have hfits := ((compoundTasks_spec hp _).1 t ht).1
        obtain ⟨pre, -, -, hfound⟩ :=
          exists_mem_methodsOf hp hw.fixed hw.inertia hfits known accepts decomposes applicable
        refine (compoundTasks_spec hp _).2.2 t ht _ hfound u ?_ hcompound
        simpa [Schema.Method.subtasks, Schema.Method.instantiate, Schema.Network.groundTasks, instances] using hu

theorem tracks_initial (hp : p.WellFormed) : p.Tracks p.initialWorld :=
  ⟨agrees_init p p.init, FactInertia.agrees_init _ _, (compoundTasks_spec hp _).2.1⟩

theorem run_iff_ground_run (hp : p.WellFormed) {ls : List Label} (hw : p.Tracks w) :
    WorldRun p.Step w ls w' ↔
      WorldRun (Ground.Step (GroundProblem.ofLifted p).actions p.boundMethods) w ls w' := by
  constructor
  · intro h
    induction h with
    | nil w => exact .nil w
    | cons first _ ih => exact .cons (ground_step_of_step hp hw first) (ih (hw.step hp first))
  · intro h
    induction h with
    | nil w => exact .nil w
    | cons first _ ih =>
        have hfirst := step_of_ground_step hp hw first
        exact .cons hfirst (ih (hw.step hp hfirst))

theorem Tracks.run (hp : p.WellFormed) {ls : List Label} (hw : p.Tracks w) (h : WorldRun p.Step w ls w') :
    p.Tracks w' := by
  induction h with
  | nil w => exact hw
  | cons first _ ih => exact ih (hw.step hp first)

end LiftedProblem

end HtnPlanner
