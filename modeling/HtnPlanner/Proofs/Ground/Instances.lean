import HtnPlanner.Proofs.Ground.Unify

/-!
The ground actions and methods are the instances, variant by variant, of those of the lifted problem:
nothing else is one, and none that can ever be used is missing.
-/

namespace HtnPlanner

variable {s : Symbols} {b : List Nat} {S : Set Fact} {fixed : Fact → Option Bool}

/-! ### Instances have no slots -/

theorem Arg.Fits.exists_const {x : Arg} (h : x.Fits s b.length) : ∃ c, x.subst b = .const c := by
  cases x with
  | const c => exact ⟨c, rfl⟩
  | slot i => exact ⟨b.get ⟨i, h⟩, Symbols.subst_slot_eq_const.mpr (List.getElem?_eq_getElem h)⟩

theorem exists_consts {xs : List Arg} (h : ∀ x ∈ xs, x.Fits s b.length) :
    ∃ cs, (xs.map (Arg.subst b)).mapM Arg.const? = some cs := by
  apply exists_mapM_eq_some
  intro y hy
  obtain ⟨x, hx, rfl⟩ := List.mem_map.mp hy
  obtain ⟨c, hc⟩ := (h x hx).exists_const
  exact ⟨c, by rw [hc]; rfl⟩

theorem length_of_consts {xs : List Arg} {cs : List Nat} (h : (xs.map (Arg.subst b)).mapM Arg.const? = some cs) :
    cs.length = xs.length := by
  have heq := congrArg List.length (args_eq_map_const h)
  simpa using heq.symm

theorem Atom.Fits.exists_fact {a : Atom} (h : a.Fits s b.length) : ∃ f, (a.subst b).fact? = some f := by
  obtain ⟨cs, hcs⟩ := exists_consts h.args
  exact ⟨_, Option.map_eq_some_iff.mpr ⟨cs, hcs, rfl⟩⟩

/-- A task symbol with as many constants as it takes. -/
structure GroundTask.Fits (s : Symbols) (t : GroundTask) : Prop where
  arity : ∃ signature, s.tasks.definition? t.symbol = some signature ∧ signature.parameters.length = t.args.length
  args : ∀ c ∈ t.args, c < s.constants.size

theorem TaskRef.Fits.exists_ground {t : TaskRef} (h : t.Fits s b.length) (hb : ∀ c ∈ b, c < s.constants.size) :
    ∃ g : GroundTask, (t.subst b).ground? = some g ∧ g.Fits s := by
  obtain ⟨cs, hcs⟩ := exists_consts h.args
  refine ⟨⟨t.symbol, cs⟩, Option.map_eq_some_iff.mpr ⟨cs, hcs, rfl⟩, ?_, ?_⟩
  · rw [length_of_consts hcs]
    exact h.arity
  · intro c hc
    obtain ⟨y, hy, hyc⟩ := (mem_of_mapM_eq_some hcs).mp hc
    obtain ⟨x, hx, rfl⟩ := List.mem_map.mp hy
    have hxc := Arg.eq_const_of_const? hyc
    cases x with
    | const d =>
        obtain rfl : d = c := Arg.const.inj hxc
        exact h.args _ hx
    | slot i => exact hb c (List.mem_of_getElem? (Symbols.subst_slot_eq_const.mp hxc))

namespace Expr

variable {pre pre' : Expr}

theorem Fits.isGround_assign (h : pre.Fits s b.length) (fixed : Fact → Option Bool) :
    ((pre.subst b).assign fixed).IsGround := by
  refine Expr.isGround_assign fixed (Over.subst h (fun a ha => ?_) fun x y hxy => ?_)
  · obtain ⟨f, hf⟩ := ha.exists_fact
    exact Option.isSome_iff_exists.mpr ⟨f, hf⟩
  · obtain ⟨c, hc⟩ := hxy.1.exists_const
    obtain ⟨d, hd⟩ := hxy.2.exists_const
    rw [hc, hd]
    exact ⟨rfl, rfl⟩

/-- A variant with its slots bound and the known values replaced, unless it is false then. -/
def IsInstance (fixed : Fact → Option Bool) (pre : Expr) (b : List Nat) (pre' : Expr) : Prop :=
  ∃ v ∈ pre.variants, pre' = (v.subst b).assign fixed ∧ pre' ≠ bottom

theorem IsInstance.isClause (h : IsInstance fixed pre b pre') (hfits : pre.Fits s b.length) :
    pre'.IsClause ∧ pre'.IsGround := by
  obtain ⟨v, hv, rfl, hne⟩ := h
  obtain ⟨hclause, hover⟩ := Over.of_mem_variants hfits hv
  exact ⟨((hclause.subst b).assign fixed).resolve_left hne, Fits.isGround_assign hover fixed⟩

theorem IsInstance.holds (h : IsInstance fixed pre b pre') (hfixed : Agrees fixed S) (hholds : pre'.Holds [] S) :
    pre.Holds b S := by
  obtain ⟨v, hv, rfl, -⟩ := h
  rw [holds_assign hfixed, holds_subst] at hholds
  exact (exists_variant_holds pre).mp ⟨v, hv, hholds⟩

end Expr

namespace LiftedProblem

variable {p : LiftedProblem}

/-! ### What the binder takes for granted -/

theorem table_spec {i : Nat} {signature : List Nat}
    (h : p.symbols.predicates.definition? i = some signature) :
    ((p.binder fixed).table i).arity = signature.length ∧
      ∀ args, args ∈ ((p.binder fixed).table i).facts ↔ ⟨i, args⟩ ∈ p.init := by
  obtain ⟨e, he, rfl⟩ := Option.map_eq_some_iff.mp h
  have htable : (p.binder fixed).table i =
      FactTable.ofList e.2.length ((p.init.filter (·.predicate == i)).map (·.args)) := by
    simp [binder, tables, List.getD_eq_getElem?_getD, he]
  obtain ⟨-, harity, hmem⟩ := FactTable.ofList_spec e.2.length ((p.init.filter (·.predicate == i)).map (·.args))
  rw [htable]
  refine ⟨harity, fun args => ?_⟩
  rw [hmem, List.mem_map]
  constructor
  · rintro ⟨f, hf, rfl⟩
    obtain ⟨hinit, hpredicate⟩ := List.mem_filter.mp hf
    rw [← beq_iff_eq.mp hpredicate]
    exact hinit
  · intro hinit
    exact ⟨⟨i, args⟩, List.mem_filter.mpr ⟨hinit, beq_self_eq_true i⟩, rfl⟩

theorem indexed_table (fixed : Fact → Option Bool) (i : Nat) : ((p.binder fixed).table i).Indexed := by
  simp only [binder, tables, List.getD_eq_getElem?_getD, List.getElem?_mapIdx]
  cases p.symbols.predicates.entries[i]? with
  | none => exact (FactTable.listed_empty 0).indexed
  | some e => exact (FactTable.ofList_spec _ _).1

theorem mem_table (hp : p.WellFormed) {f : Fact} (hf : f ∈ p.init) :
    f.args ∈ ((p.binder fixed).table f.predicate).facts := by
  obtain ⟨signature, hsignature, -⟩ := hp.init f hf
  exact ((table_spec hsignature).2 f.args).mpr hf

theorem fixedValue_of_closed {f : Fact} (hclosed : (p.binder fixed).closed f.predicate = true) (hf : f ∉ p.init) :
    p.fixedValue f = some false := by
  have hvalue : (p.inertia.of f.predicate).fixedValue false = some false := beq_iff_eq.mp hclosed
  simpa [fixedValue, PredicateInertia.fixedValue, hf] using hvalue

theorem covers_binder (hp : p.WellFormed) (hS : Expr.Agrees p.fixedValue S) (hfixed : Expr.Agrees fixed S) :
    (p.binder fixed).Covers S := by
  refine ⟨hfixed, indexed_table fixed, fun f hf hclosed => ?_⟩
  by_contra hmem
  have hvalue := fixedValue_of_closed hclosed fun hinit => hmem (mem_table hp hinit)
  exact absurd ((hS f false hvalue).mp hf) (by simp)

theorem arity_le_of_fits {n : Nat} {e : Expr} (h : e.Fits p.symbols n) :
    e.Over (fun a => a.args.length ≤ ((p.binder fixed).table a.predicate).arity)
      fun x y => x.Fits p.symbols n ∧ y.Fits p.symbols n := by
  refine h.mono (fun a ha => ?_) fun _ _ hxy => hxy
  obtain ⟨signature, hsignature, hlength⟩ := ha.arity
  rw [(table_spec hsignature).1, hlength]

/-! ### Actions -/

theorem ground?_eq (a : Schema.Action) (v : Expr) (b : List Nat) :
    Schema.Action.ground? fixed { a with precondition := v } b = if (v.subst b).assign fixed = .bottom then none
      else some { a.instantiate b with precondition := (v.subst b).assign fixed } := by
  simp only [Schema.Action.ground?, Schema.Action.instantiate]
  cases (v.subst b).assign fixed <;> rfl

theorem mem_groundActions {a' : Schema.Action} : a' ∈ p.groundActions ↔
    ∃ a ∈ p.actions, ∃ v ∈ a.precondition.variants,
      ∃ b ∈ (p.binder p.fixedValue).bindings a.parameters v (List.replicate a.parameters.length none),
        (v.subst b).assign p.fixedValue ≠ .bottom ∧
          a' = { a.instantiate b with precondition := (v.subst b).assign p.fixedValue } := by
  have hground : ∀ (a : Schema.Action) (v : Expr) (b : List Nat),
      Schema.Action.ground? p.fixedValue { a with precondition := v } b = some a' ↔
        (v.subst b).assign p.fixedValue ≠ .bottom ∧
          a' = { a.instantiate b with precondition := (v.subst b).assign p.fixedValue } := by
    intro a v b
    rw [ground?_eq, Option.ite_none_left_eq_some, Option.some.injEq, eq_comm (a := a')]
  simp only [groundActions, List.mem_eraseDups, List.mem_flatMap, Binder.groundAction,
    Binder.actionInstances, List.mem_filterMap]
  exact exists_congr fun a => and_congr_right fun _ => exists_congr fun v => and_congr_right fun _ =>
    exists_congr fun b => and_congr_right fun _ => hground a v b

theorem of_mem_groundActions (hp : p.WellFormed) {a' : Schema.Action} (h : a' ∈ p.groundActions) :
    ∃ a ∈ p.actions, ∃ b pre, p.Accepts a.parameters b ∧
      Expr.IsInstance p.fixedValue a.precondition b pre ∧ a' = { a.instantiate b with precondition := pre } := by
  obtain ⟨a, ha, v, hv, b, hb, hne, rfl⟩ := mem_groundActions.mp h
  have hbinds := Binder.binds_of_mem_bindings (List.length_replicate ..) hb
  have haccepts := (binds_iff_accepts hp.settled (hp.actions a ha).types (List.length_replicate ..)
    Symbols.typedBinding_unbound).mp hbinds
  exact ⟨a, ha, b, _, haccepts.2, ⟨v, hv, rfl, hne⟩, rfl⟩

/-- An instance of an action that can be applied is found. -/
theorem exists_mem_groundActions (hp : p.WellFormed) (hS : Expr.Agrees p.fixedValue S) {a : Schema.Action}
    (ha : a ∈ p.actions) (hb : p.Accepts a.parameters b) (hholds : a.precondition.Holds b S) :
    ∃ pre, Expr.IsInstance p.fixedValue a.precondition b pre ∧ pre.Holds [] S ∧
      { a.instantiate b with precondition := pre } ∈ p.groundActions := by
  obtain ⟨v, hv, hvb⟩ := (Expr.exists_variant_holds a.precondition).mpr hholds
  have hpre : ((v.subst b).assign p.fixedValue).Holds [] S := by
    rwa [Expr.holds_assign hS, Expr.holds_subst]
  have hne : (v.subst b).assign p.fixedValue ≠ .bottom := by
    intro hbottom
    rw [hbottom] at hpre
    exact hpre
  refine ⟨_, ⟨v, hv, rfl, hne⟩, hpre, mem_groundActions.mpr ⟨a, ha, v, hv, b, ?_, hne, rfl⟩⟩
  have hfits := (Expr.Over.of_mem_variants (hp.actions a ha).precondition hv).2
  refine (covers_binder hp hS hS).mem_bindings (arity_le_of_fits hfits) (List.length_replicate ..) ?_ hvb
  exact (binds_iff_accepts hp.settled (hp.actions a ha).types (List.length_replicate ..)
    Symbols.typedBinding_unbound).mpr
      ⟨Symbols.completes_unbound.mpr (accepts_iff.mp hb).1, hb⟩

/-! ### Methods -/

theorem mem_methodsOf {bd : Binder} {t : GroundTask} {m' : Schema.Method} :
    m' ∈ bd.methodsOf p.symbols p.methods t ↔
      ∃ m ∈ p.methods, m.task.symbol = t.symbol ∧ ∃ v ∈ m.precondition.variants,
        ∃ binding, p.symbols.unify? m t = some binding ∧ ∃ b ∈ bd.bindings m.parameters v binding,
          (v.subst b).assign bd.fixed ≠ .bottom ∧
            m' = { m.instantiate b with precondition := (v.subst b).assign bd.fixed } := by
  have hground : ∀ (m : Schema.Method) (v : Expr) (b : List Nat),
      Schema.Method.ground? bd.fixed { m with precondition := v } b = some m' ↔
        (v.subst b).assign bd.fixed ≠ .bottom ∧
          m' = { m.instantiate b with precondition := (v.subst b).assign bd.fixed } := by
    intro m v b
    simp only [Schema.Method.ground?, Schema.Method.instantiate]
    cases (v.subst b).assign bd.fixed <;> simp [eq_comm (a := m')]
  simp only [Binder.methodsOf, List.mem_flatMap, List.mem_filter, beq_iff_eq, and_assoc, Binder.groundMethod]
  refine exists_congr fun m => and_congr_right fun _ => and_congr_right fun _ => exists_congr fun v =>
    and_congr_right fun _ => ?_
  have hunify : p.symbols.unify? { m with precondition := v } t = p.symbols.unify? m t := rfl
  rw [Binder.methodInstances, hunify]
  cases p.symbols.unify? m t with
  | none => simp
  | some binding =>
      simp only [List.mem_filterMap, Option.some.injEq, exists_eq_left']
      exact exists_congr fun b => and_congr_right fun _ => hground m v b

theorem args_length_of_fits (hp : p.WellFormed) {m : Schema.Method} (hm : m ∈ p.methods) {t : GroundTask}
    (ht : t.Fits p.symbols) (hsymbol : m.task.symbol = t.symbol) : m.task.args.length = t.args.length := by
  obtain ⟨signature, hsignature, hlength⟩ := (hp.methods m hm).task.arity
  obtain ⟨signature', hsignature', hlength'⟩ := ht.arity
  rw [hsymbol, hsignature'] at hsignature
  rw [← hlength, ← hlength', Option.some.inj hsignature]

/-- What becomes of a method for constants of the right types and one variant of its precondition, when the
known values are replaced and that does not make it false. -/
structure GroundsMethod (p : LiftedProblem) (fixed : Fact → Option Bool) (m : Schema.Method) (v : Expr)
    (b : List Nat) (m' : Schema.Method) : Prop where
  known : m ∈ p.methods
  variant : v ∈ m.precondition.variants
  accepts : p.Accepts m.parameters b
  consistent : (v.subst b).assign fixed ≠ .bottom
  instance_eq : m' = { m.instantiate b with precondition := (v.subst b).assign fixed }

theorem groundsMethod_of_mem_methodsOf (hp : p.WellFormed) {t : GroundTask} (ht : t.Fits p.symbols)
    {m' : Schema.Method} (h : m' ∈ (p.binder fixed).methodsOf p.symbols p.methods t) :
    m'.groundTask? = some t ∧ ∃ m v b, p.GroundsMethod fixed m v b m' := by
  obtain ⟨m, hm, hsymbol, v, hv, binding, hunify, b, hb, hne, rfl⟩ := mem_methodsOf.mp h
  obtain ⟨hlength, htyped, hcompletes⟩ := Symbols.unify?_spec hsymbol (args_length_of_fits hp hm ht hsymbol) hunify
  have hbinds := Binder.binds_of_mem_bindings hlength hb
  obtain ⟨hb, haccepts⟩ := (binds_iff_accepts hp.settled (hp.methods m hm).types hlength htyped).mp hbinds
  exact ⟨((hcompletes b).mp hb).2, m, v, b, hm, hv, haccepts, hne, rfl⟩

theorem of_mem_methodsOf (hp : p.WellFormed) {t : GroundTask} (ht : t.Fits p.symbols) {m' : Schema.Method}
    (h : m' ∈ (p.binder fixed).methodsOf p.symbols p.methods t) :
    ∃ m ∈ p.methods, ∃ b pre, p.Accepts m.parameters b ∧ (m.task.subst b).ground? = some t ∧
      Expr.IsInstance fixed m.precondition b pre ∧ m' = { m.instantiate b with precondition := pre } := by
  obtain ⟨htask, m, v, b, hm, hv, hb, hne, rfl⟩ := groundsMethod_of_mem_methodsOf hp ht h
  exact ⟨m, hm, b, _, hb, htask, ⟨v, hv, rfl, hne⟩, rfl⟩

/-- Unification with a task succeeds for every method that decomposes it, and leaves every binding with which it
does. -/
theorem exists_binds (hp : p.WellFormed) {t : GroundTask} (ht : t.Fits p.symbols) {m : Schema.Method}
    (hm : m ∈ p.methods) (hb : p.Accepts m.parameters b) (htask : (m.task.subst b).ground? = some t) :
    m.task.symbol = t.symbol ∧ ∃ binding, p.symbols.unify? m t = some binding ∧
      binding.length = m.parameters.length ∧ Binder.Binds p.symbols.domain m.parameters binding b := by
  have hsymbol : m.task.symbol = t.symbol := by
    obtain ⟨cs, -, rfl⟩ := Option.map_eq_some_iff.mp htask
    rfl
  have hlengths := args_length_of_fits hp hm ht hsymbol
  have htypes := (hp.methods m hm).types
  have hblength : b.length = m.parameters.length := (accepts_iff.mp hb).1
  obtain ⟨binding, hunify⟩ :=
    Symbols.exists_unify? hsymbol hlengths hblength (hb.typedValues hp.settled htypes) htask
  obtain ⟨hlength, htyped, hcompletes⟩ := Symbols.unify?_spec hsymbol hlengths hunify
  have hbinds := (binds_iff_accepts hp.settled htypes hlength htyped).mpr ⟨(hcompletes b).mpr ⟨hblength, htask⟩, hb⟩
  exact ⟨hsymbol, binding, hunify, hlength, hbinds⟩

theorem exists_mem_methodsOf (hp : p.WellFormed) (hS : Expr.Agrees p.fixedValue S) (hfixed : Expr.Agrees fixed S)
    {t : GroundTask} (ht : t.Fits p.symbols) {m : Schema.Method} (hm : m ∈ p.methods)
    (hb : p.Accepts m.parameters b) (htask : (m.task.subst b).ground? = some t)
    (hholds : m.precondition.Holds b S) :
    ∃ pre, Expr.IsInstance fixed m.precondition b pre ∧ pre.Holds [] S ∧
      { m.instantiate b with precondition := pre } ∈ (p.binder fixed).methodsOf p.symbols p.methods t := by
  obtain ⟨v, hv, hvb⟩ := (Expr.exists_variant_holds m.precondition).mpr hholds
  have hpre : ((v.subst b).assign fixed).Holds [] S := by
    rwa [Expr.holds_assign hfixed, Expr.holds_subst]
  have hne : (v.subst b).assign fixed ≠ .bottom := by
    intro hbottom
    rw [hbottom] at hpre
    exact hpre
  obtain ⟨hsymbol, binding, hunify, hlength, hbinds⟩ := exists_binds hp ht hm hb htask
  refine ⟨_, ⟨v, hv, rfl, hne⟩, hpre, mem_methodsOf.mpr ⟨m, hm, hsymbol, v, hv, binding, hunify, b, ?_, hne, rfl⟩⟩
  have hfits := (Expr.Over.of_mem_variants (hp.methods m hm).precondition hv).2
  exact (covers_binder hp hS hfixed).mem_bindings (arity_le_of_fits hfits) hlength hbinds hvb

end LiftedProblem

end HtnPlanner
