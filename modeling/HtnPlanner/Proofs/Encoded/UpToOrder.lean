import HtnPlanner.Proofs.Encoded.Relevance
import HtnPlanner.Proofs.Encoded.State
import HtnPlanner.Proofs.Expr.Repetition
import HtnPlanner.Proofs.Ground.SelfSupport

/-!
No two ground operators are equal, but their conditions and effects are encoded as sets, so that two that are written
in different orders become one and the same.
-/

namespace HtnPlanner

namespace Schema

/-- The same action, whatever the order of the literals in the condition, and their order and number in the effect. -/
structure Action.SameUpToOrder (a b : Action) : Prop where
  name : a.name = b.name
  groundTask : a.groundTask = b.groundTask
  precondition : a.precondition.literals.Perm b.precondition.literals
  effect : ∀ l, l ∈ a.effectLiterals ↔ l ∈ b.effectLiterals

/-- The same method, whatever the order of the literals in the condition and the pairs by which the order is given. -/
structure Method.SameUpToOrder (m n : Method) : Prop where
  name : m.name = n.name
  args : m.args = n.args
  groundTask : m.groundTask? = n.groundTask?
  precondition : m.precondition.literals.Perm n.precondition.literals
  subtasks : m.subtasks = n.subtasks
  order : m.network.closedOrder = n.network.closedOrder

end Schema

/-! ### What the encoding does not tell apart -/

theorem Literal.forall_iff {Q : Literal → Prop} : (∀ l, Q l) ↔ (∀ f, Q ⟨true, f⟩) ∧ ∀ f, Q ⟨false, f⟩ := by
  refine ⟨fun h => ⟨fun f => h _, fun f => h _⟩, fun h l => ?_⟩
  obtain ⟨positive, f⟩ := l
  cases positive with
  | true => exact h.1 f
  | false => exact h.2 f

namespace Encoded

variable {facts : List Fact} {ls ls' : List Literal}

theorem indices_eq_iff (h : ∀ l ∈ ls, l.fact ∈ facts) (h' : ∀ l ∈ ls', l.fact ∈ facts) (positive : Bool) :
    indices facts positive ls = indices facts positive ls' ↔ ∀ f, ⟨positive, f⟩ ∈ ls ↔ ⟨positive, f⟩ ∈ ls' := by
  constructor
  · intro heq f
    -- a fact without a number is in neither list
    by_cases hf : f ∈ facts
    · have hk := idxOf?_eq_some hf
      rw [← contains_indices_of_idxOf? hk, heq, contains_indices_of_idxOf? hk]
    · exact iff_of_false (fun hl => hf (h _ hl)) fun hl => hf (h' _ hl)
  · intro heq
    refine IndexSet.ext fun k => Bool.eq_iff_iff.mpr ?_
    simp only [contains_indices, heq]

theorem condition_eq_iff (h : ∀ l ∈ ls, l.fact ∈ facts) (h' : ∀ l ∈ ls', l.fact ∈ facts) :
    condition facts ls = condition facts ls' ↔ ∀ l, l ∈ ls ↔ l ∈ ls' := by
  rw [condition, condition, Condition.mk.injEq, indices_eq_iff h h', indices_eq_iff h h', Literal.forall_iff]

theorem effect_eq_iff (h : ∀ l ∈ ls, l.fact ∈ facts) (h' : ∀ l ∈ ls', l.fact ∈ facts) :
    effect facts ls = effect facts ls' ↔ ∀ l, l ∈ ls ↔ l ∈ ls' := by
  rw [effect, effect, Effect.mk.injEq, indices_eq_iff h h', indices_eq_iff h h', Literal.forall_iff]

/-- A task can be read back from its number. -/
theorem map_idxOf_inj {tasks ts us : List GroundTask} (ht : ∀ t ∈ ts, t ∈ tasks) (hu : ∀ t ∈ us, t ∈ tasks)
    (h : ts.map tasks.idxOf = us.map tasks.idxOf) : ts = us := by
  have hback : ∀ l : List GroundTask, (∀ t ∈ l, t ∈ tasks) → (l.map tasks.idxOf).map (tasks[·]?) = l.map some := by
    intro l hl
    rw [List.map_map]
    exact List.map_congr_left fun t ht => List.getElem?_idxOf (hl t ht)
  refine List.map_injective_iff.mpr (Option.some_injective _) ?_
  rw [← hback ts ht, ← hback us hu, h]

end Encoded

namespace GroundProblem

variable {p : GroundProblem} {tasks : List GroundTask}

theorem encoded_action_eq_iff {a b : Schema.Action} (ha : a ∈ p.relevantActions tasks)
    (hb : b ∈ p.relevantActions tasks) (hnodup : a.precondition.literals.Nodup)
    (hnodup' : b.precondition.literals.Nodup) :
    Encoded.action (p.relevantFacts tasks) tasks a = Encoded.action (p.relevantFacts tasks) tasks b ↔
      a.SameUpToOrder b := by
  have hcondition := Encoded.condition_eq_iff (fun l hl => fact_mem_of_action ha (l := l) hl)
    (fun l hl => fact_mem_of_action hb (l := l) hl)
  have heffect := Encoded.effect_eq_iff (fun l hl => fact_mem_of_effect ha (l := l) hl)
    (fun l hl => fact_mem_of_effect hb (l := l) hl)
  have htask : tasks.idxOf a.groundTask = tasks.idxOf b.groundTask ↔ a.groundTask = b.groundTask :=
    List.idxOf_inj (mem_relevantActions.mp ha).2
  rw [← List.perm_ext_iff_of_nodup hnodup hnodup'] at hcondition
  rw [Encoded.action, Encoded.action, Encoded.Action.mk.injEq, htask, hcondition, heffect]
  constructor
  · rintro ⟨hname, -, hsame, hperm, hmem⟩
    exact ⟨hname, hsame, hperm, hmem⟩
  · rintro ⟨hname, hsame, hperm, hmem⟩
    exact ⟨hname, congrArg GroundTask.args hsame, hsame, hperm, hmem⟩

theorem encoded_method_eq_iff {m n : Schema.Method} (hm : m ∈ p.relevantMethods p.relevantTasks)
    (hn : n ∈ p.relevantMethods p.relevantTasks) (hnodup : m.precondition.literals.Nodup)
    (hnodup' : n.precondition.literals.Nodup) :
    Encoded.method (p.relevantFacts p.relevantTasks) p.relevantTasks m =
        Encoded.method (p.relevantFacts p.relevantTasks) p.relevantTasks n ↔ m.SameUpToOrder n := by
  have hcondition := Encoded.condition_eq_iff (fun l hl => fact_mem_of_method hm (l := l) hl)
    (fun l hl => fact_mem_of_method hn (l := l) hl)
  obtain ⟨hknown, t, ht, hmt⟩ := mem_relevantMethods.mp hm
  obtain ⟨hknown', u, hu, hnu⟩ := mem_relevantMethods.mp hn
  have htask : p.relevantTasks.idxOf t = p.relevantTasks.idxOf u ↔ m.groundTask? = n.groundTask? := by
    rw [hmt, hnu, Option.some.injEq]
    exact List.idxOf_inj ht
  have hsubtasks : m.subtasks.map p.relevantTasks.idxOf = n.subtasks.map p.relevantTasks.idxOf ↔
      m.subtasks = n.subtasks :=
    ⟨Encoded.map_idxOf_inj ((relevantTasks_spec p).2 t ht m hknown hmt)
      ((relevantTasks_spec p).2 u hu n hknown' hnu), congrArg _⟩
  rw [← List.perm_ext_iff_of_nodup hnodup hnodup'] at hcondition
  rw [Encoded.method, Encoded.method, hmt, hnu, Option.elim_some, Option.elim_some, Encoded.Method.mk.injEq, htask,
    hcondition, hsubtasks]
  exact ⟨fun ⟨hname, hargs, hsame, hperm, hsub, horder⟩ => ⟨hname, hargs, hsame, hperm, hsub, horder⟩,
    fun h => ⟨h.name, h.args, h.groundTask, h.precondition, h.subtasks, h.order⟩⟩

end GroundProblem

/-! ### The ground operators -/

namespace LiftedProblem

variable {p : LiftedProblem} {a b : Schema.Action} {m n : Schema.Method}

/-- The instance of an action for a variant of its condition, in view of all that never changes. -/
def actionFor (p : LiftedProblem) (a : Schema.Action) (v : Expr) (args : List Nat) : Schema.Action :=
  { a.instantiate args with
    precondition := ((v.subst args).assign p.fixedValue).assign p.factInertia.fixedValue
    effect := .conj (((a.effect.subst args).literals.filter fun l =>
      (p.factInertia.fixedValue l.fact).isNone).map Expr.ofLiteral) }

def methodFor (p : LiftedProblem) (m : Schema.Method) (v : Expr) (args : List Nat) : Schema.Method :=
  { m.instantiate args with precondition := (v.subst args).assign p.factInertia.fixedValue }

theorem exists_actionFor (ha : a ∈ (GroundProblem.ofLifted p).actions) :
    ∃ a₀ ∈ p.actions, ∃ v ∈ a₀.precondition.variants, ∃ args, a = p.actionFor a₀ v args := by
  obtain ⟨a', ha', hsimplify⟩ := mem_simplifyActions.mp ha
  obtain ⟨-, rfl⟩ := Schema.Action.simplify?_eq_some.mp hsimplify
  obtain ⟨a₀, h₀, v, hv, args, -, -, rfl⟩ := mem_groundActions.mp ha'
  exact ⟨a₀, h₀, v, hv, args, rfl⟩

theorem exists_methodFor (hp : p.WellFormed) (hm : m ∈ (GroundProblem.ofLifted p).methods) :
    ∃ m₀ ∈ p.methods, ∃ v ∈ m₀.precondition.variants, ∃ args, m = p.methodFor m₀ v args := by
  obtain ⟨-, m₀, v, args, h₀, hv, -, -, rfl⟩ := exists_groundsMethod hp (prune_subset hm)
  exact ⟨m₀, h₀, v, hv, args, rfl⟩

theorem nodup_actions (p : LiftedProblem) : (GroundProblem.ofLifted p).actions.Nodup := nodup_eraseDups _

theorem nodup_methods (p : LiftedProblem) : (GroundProblem.ofLifted p).methods.Nodup := by
  rw [GroundProblem.ofLifted, prune_eq_filter]
  exact (nodup_eraseDups _).filter _

/-- No member of a clause is replaced by several, so each is compared with those before it. -/
theorem nodup_literals_action (hp : p.WellFormed) (ha : a ∈ (GroundProblem.ofLifted p).actions) :
    a.precondition.literals.Nodup := by
  have hread := (GroundProblem.legible_ofLifted hp).precondition a ha
  obtain ⟨a₀, args, pre, hground⟩ := exists_isGroundAction hp ha
  have hfits := (hp.actions a₀ hground.known).precondition
  rw [← hground.length] at hfits
  rw [hground.precondition] at hread ⊢
  exact ((hground.variant.isClause hfits).1.distinct_assign _).nodup_literals hread

theorem nodup_literals_method (hp : p.WellFormed) (hm : m ∈ (GroundProblem.ofLifted p).methods) :
    m.precondition.literals.Nodup := by
  have hread := (GroundProblem.legible_ofLifted hp).condition m hm
  obtain ⟨m₀, h₀, v, hv, args, rfl⟩ := exists_methodFor hp hm
  have hclause : (v.subst args).IsClause := (Expr.Over.of_mem_variants (hp.methods m₀ h₀).precondition hv).1.subst args
  exact (hclause.distinct_assign _).nodup_literals hread

/-! ### Where all names are different -/

/-- What there is to tell two instances for the same arguments apart is the variant. -/
theorem exists_variants_action (hnames : (p.actions.map (·.name)).Nodup) (ha : a ∈ (GroundProblem.ofLifted p).actions)
    (hb : b ∈ (GroundProblem.ofLifted p).actions) (hname : a.name = b.name) (hargs : a.args = b.args) :
    ∃ a₀ ∈ p.actions, ∃ v ∈ a₀.precondition.variants, ∃ w ∈ a₀.precondition.variants, ∃ args,
      a = p.actionFor a₀ v args ∧ b = p.actionFor a₀ w args := by
  obtain ⟨a₀, h₀, v, hv, args, rfl⟩ := exists_actionFor ha
  obtain ⟨b₀, h₁, w, hw, args', rfl⟩ := exists_actionFor hb
  obtain rfl : a₀ = b₀ := List.inj_on_of_nodup_map hnames h₀ h₁ hname
  obtain rfl : args = args' := hargs
  exact ⟨a₀, h₀, v, hv, w, hw, args, rfl, rfl⟩

theorem exists_variants_method (hp : p.WellFormed) (hnames : (p.methods.map (·.name)).Nodup)
    (hm : m ∈ (GroundProblem.ofLifted p).methods) (hn : n ∈ (GroundProblem.ofLifted p).methods)
    (hname : m.name = n.name) (hargs : m.args = n.args) :
    ∃ m₀ ∈ p.methods, ∃ v ∈ m₀.precondition.variants, ∃ w ∈ m₀.precondition.variants, ∃ args,
      m = p.methodFor m₀ v args ∧ n = p.methodFor m₀ w args := by
  obtain ⟨m₀, h₀, v, hv, args, rfl⟩ := exists_methodFor hp hm
  obtain ⟨n₀, h₁, w, hw, args', rfl⟩ := exists_methodFor hp hn
  obtain rfl : m₀ = n₀ := List.inj_on_of_nodup_map hnames h₀ h₁ hname
  obtain rfl : args = args' := hargs
  exact ⟨m₀, h₀, v, hv, w, hw, args, rfl, rfl⟩

/-- Instances of one action differ in their conditions only, and these in the order of their literals if they are the
same up to order. -/
theorem sameUpToOrder_action (hp : p.WellFormed) (hnames : (p.actions.map (·.name)).Nodup)
    (ha : a ∈ (GroundProblem.ofLifted p).actions) (hb : b ∈ (GroundProblem.ofLifted p).actions) (hname : a.name = b.name)
    (hargs : a.args = b.args) :
    (a.SameUpToOrder b ↔ a.precondition.literals.Perm b.precondition.literals) ∧
      (a = b ↔ a.precondition.literals = b.precondition.literals) := by
  have hread := (GroundProblem.legible_ofLifted hp).precondition a ha
  have hread' := (GroundProblem.legible_ofLifted hp).precondition b hb
  obtain ⟨a₀, -, v, -, w, -, args, rfl, rfl⟩ := exists_variants_action hnames ha hb hname hargs
  refine ⟨⟨fun h => h.precondition, fun h => ⟨rfl, rfl, h, fun l => Iff.rfl⟩⟩, fun h => h ▸ rfl, fun h => ?_⟩
  have hprecondition := (Expr.reduced_simplify _).eq_of_literals_eq (Expr.reduced_simplify _) hread hread' h
  exact congrArg (fun e => { p.actionFor a₀ v args with precondition := e }) hprecondition

theorem sameUpToOrder_method (hp : p.WellFormed) (hnames : (p.methods.map (·.name)).Nodup)
    (hm : m ∈ (GroundProblem.ofLifted p).methods) (hn : n ∈ (GroundProblem.ofLifted p).methods)
    (hname : m.name = n.name) (hargs : m.args = n.args) :
    (m.SameUpToOrder n ↔ m.precondition.literals.Perm n.precondition.literals) ∧
      (m = n ↔ m.precondition.literals = n.precondition.literals) := by
  have hread := (GroundProblem.legible_ofLifted hp).condition m hm
  have hread' := (GroundProblem.legible_ofLifted hp).condition n hn
  obtain ⟨m₀, -, v, -, w, -, args, rfl, rfl⟩ := exists_variants_method hp hnames hm hn hname hargs
  refine ⟨⟨fun h => h.precondition, fun h => ⟨rfl, rfl, rfl, h, rfl, rfl⟩⟩, fun h => h ▸ rfl, fun h => ?_⟩
  have hprecondition := (Expr.reduced_simplify _).eq_of_literals_eq (Expr.reduced_simplify _) hread hread' h
  exact congrArg (fun e => { p.methodFor m₀ v args with precondition := e }) hprecondition

end LiftedProblem

/-! ### When one is encoded twice -/

namespace GroundProblem

variable {L : LiftedProblem}

theorem nodup_relevantActions (L : LiftedProblem) (tasks : List GroundTask) :
    ((ofLifted L).relevantActions tasks).Nodup :=
  L.nodup_actions.filter _

theorem nodup_relevantMethods (L : LiftedProblem) (tasks : List GroundTask) :
    ((ofLifted L).relevantMethods tasks).Nodup :=
  L.nodup_methods.filter _

theorem nodup_actions_iff (hL : L.WellFormed) : (EncodedProblem.ofGround (ofLifted L)).actions.Nodup ↔
    ∀ a ∈ (ofLifted L).relevantActions (ofLifted L).relevantTasks,
      ∀ b ∈ (ofLifted L).relevantActions (ofLifted L).relevantTasks, a.SameUpToOrder b → a = b := by
  rw [EncodedProblem.ofGround, List.nodup_map_iff_inj_on (nodup_relevantActions L _)]
  refine forall₂_congr fun a ha => forall₂_congr fun b hb => ?_
  rw [encoded_action_eq_iff ha hb (LiftedProblem.nodup_literals_action hL (mem_relevantActions.mp ha).1)
    (LiftedProblem.nodup_literals_action hL (mem_relevantActions.mp hb).1)]

theorem nodup_methods_iff (hL : L.WellFormed) : (EncodedProblem.ofGround (ofLifted L)).methods.Nodup ↔
    ∀ m ∈ (ofLifted L).relevantMethods (ofLifted L).relevantTasks,
      ∀ n ∈ (ofLifted L).relevantMethods (ofLifted L).relevantTasks, m.SameUpToOrder n → m = n := by
  rw [EncodedProblem.ofGround, List.nodup_map_iff_inj_on (nodup_relevantMethods L _)]
  refine forall₂_congr fun m hm => forall₂_congr fun n hn => ?_
  rw [encoded_method_eq_iff hm hn (LiftedProblem.nodup_literals_method hL (mem_relevantMethods.mp hm).1)
    (LiftedProblem.nodup_literals_method hL (mem_relevantMethods.mp hn).1)]

/-- Equal conditions are ones with the same literals in the same order, as conjunctions are written in one way. -/
theorem nodup_actions_iff_of_names (hL : L.WellFormed) (hnames : (L.actions.map (·.name)).Nodup) :
    (EncodedProblem.ofGround (ofLifted L)).actions.Nodup ↔
      ∀ a ∈ (ofLifted L).relevantActions (ofLifted L).relevantTasks,
        ∀ b ∈ (ofLifted L).relevantActions (ofLifted L).relevantTasks, a.name = b.name → a.args = b.args →
          a.precondition.literals.Perm b.precondition.literals → a.precondition.literals = b.precondition.literals := by
  rw [nodup_actions_iff hL]
  refine forall₂_congr fun a ha => forall₂_congr fun b hb => ?_
  have hsame := LiftedProblem.sameUpToOrder_action hL hnames (mem_relevantActions.mp ha).1 (mem_relevantActions.mp hb).1
  constructor
  · intro h hname hargs hperm
    exact (hsame hname hargs).2.mp (h ((hsame hname hargs).1.mpr hperm))
  · intro h hab
    have hargs : a.args = b.args := congrArg GroundTask.args hab.groundTask
    exact (hsame hab.name hargs).2.mpr (h hab.name hargs hab.precondition)

theorem nodup_methods_iff_of_names (hL : L.WellFormed) (hnames : (L.methods.map (·.name)).Nodup) :
    (EncodedProblem.ofGround (ofLifted L)).methods.Nodup ↔
      ∀ m ∈ (ofLifted L).relevantMethods (ofLifted L).relevantTasks,
        ∀ n ∈ (ofLifted L).relevantMethods (ofLifted L).relevantTasks, m.name = n.name → m.args = n.args →
          m.precondition.literals.Perm n.precondition.literals → m.precondition.literals = n.precondition.literals := by
  rw [nodup_methods_iff hL]
  refine forall₂_congr fun m hm => forall₂_congr fun n hn => ?_
  have hsame := LiftedProblem.sameUpToOrder_method hL hnames (mem_relevantMethods.mp hm).1 (mem_relevantMethods.mp hn).1
  constructor
  · intro h hname hargs hperm
    exact (hsame hname hargs).2.mp (h ((hsame hname hargs).1.mpr hperm))
  · intro h hmn
    exact (hsame hmn.name hmn.args).2.mpr (h hmn.name hmn.args hmn.precondition)

/-- Nothing is repeated for a condition without alternatives, however often it says something. -/
theorem nodup_actions_of_variants (hL : L.WellFormed) (hnames : (L.actions.map (·.name)).Nodup)
    (hsingle : ∀ a ∈ L.actions, ∀ v ∈ a.precondition.variants, ∀ w ∈ a.precondition.variants, v = w) :
    (EncodedProblem.ofGround (ofLifted L)).actions.Nodup := by
  rw [nodup_actions_iff hL]
  intro a ha b hb hab
  obtain ⟨a₀, h₀, v, hv, w, hw, args, rfl, rfl⟩ := LiftedProblem.exists_variants_action hnames
    (mem_relevantActions.mp ha).1 (mem_relevantActions.mp hb).1 hab.name (congrArg GroundTask.args hab.groundTask)
  rw [hsingle a₀ h₀ v hv w hw]

theorem nodup_methods_of_variants (hL : L.WellFormed) (hnames : (L.methods.map (·.name)).Nodup)
    (hsingle : ∀ m ∈ L.methods, ∀ v ∈ m.precondition.variants, ∀ w ∈ m.precondition.variants, v = w) :
    (EncodedProblem.ofGround (ofLifted L)).methods.Nodup := by
  rw [nodup_methods_iff hL]
  intro m hm n hn hmn
  obtain ⟨m₀, h₀, v, hv, w, hw, args, rfl, rfl⟩ := LiftedProblem.exists_variants_method hL hnames
    (mem_relevantMethods.mp hm).1 (mem_relevantMethods.mp hn).1 hmn.name hmn.args
  rw [hsingle m₀ h₀ v hv w hw]

end GroundProblem

end HtnPlanner
