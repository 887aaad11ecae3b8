import HtnPlanner.Proofs.Ground.Simulation
import HtnPlanner.Proofs.Lookup.Actions

/-!
Ground methods are found without an id, a slot or a value that is not there, and with them the ground
problem.
-/

namespace HtnPlanner.Lookup

variable {s : Symbols} {p : LiftedProblem}

/-! ### Unification -/

def bindArg (s : Symbols) (parameters : List Nat) (binding : List (Option Nat)) :
    Arg × Nat → Option (Option (List (Option Nat)))
  | (.const c, value) => some (if c = value then some binding else none)
  | (.slot i, value) => do
    match ← binding[i]? with
    | some bound => some (if bound = value then some binding else none)
    | none =>
      let type ← parameters[i]?
      if ← isOfType s value type then some (some (binding.set i (some value))) else some none

def bindArgs (s : Symbols) (parameters : List Nat) :
    List (Arg × Nat) → List (Option Nat) → Option (Option (List (Option Nat)))
  | [], binding => some (some binding)
  | q :: qs, binding => do
    match ← bindArg s parameters binding q with
    | some binding => bindArgs s parameters qs binding
    | none => some none

def unify (s : Symbols) (m : Schema.Method) (t : GroundTask) : Option (Option (List (Option Nat))) :=
  bindArgs s m.parameters (m.task.args.zip t.args) (List.replicate m.parameters.length none)

theorem bindArg_eq (h : s.Linked) {parameters : List Nat} {binding : List (Option Nat)}
    (hlength : binding.length = parameters.length) {q : Arg × Nat} (hq : q.1.Fits s parameters.length)
    (hvalue : q.2 < s.constants.size) :
    bindArg s parameters binding q = some (s.bindArg parameters binding q) := by
  obtain ⟨x, v⟩ := q
  cases x with
  | const c => rfl
  | slot i =>
      have hi : i < parameters.length := hq
      have hget : binding[i]? = some binding[i] := List.getElem?_eq_getElem (hlength ▸ hi)
      rw [bindArg, Symbols.bindArg, hget]
      cases hbound : binding[i] with
      | some bound => rfl
      | none =>
          simp only [List.getElem?_eq_getElem hi, isOfType_eq h hvalue, Option.bind_eq_bind, Option.bind_some,
            Option.join_some, Option.any_some]
          split <;> rfl

theorem bindArgs_eq (h : s.Linked) {parameters : List Nat} {binding : List (Option Nat)}
    (hlength : binding.length = parameters.length) {qs : List (Arg × Nat)}
    (hqs : ∀ q ∈ qs, q.1.Fits s parameters.length ∧ q.2 < s.constants.size) :
    bindArgs s parameters qs binding = some (qs.foldlM (s.bindArg parameters) binding) := by
  induction qs generalizing binding with
  | nil => rfl
  | cons q qs ih =>
      obtain ⟨hq, hvalue⟩ := hqs q List.mem_cons_self
      rw [bindArgs, List.foldlM_cons, bindArg_eq h hlength hq hvalue]
      cases hnext : s.bindArg parameters binding q with
      | none => rfl
      | some next =>
          exact ih ((Symbols.length_bindArg hnext).trans hlength) fun r hr => hqs r (List.mem_cons_of_mem q hr)

theorem unify_eq (h : s.Linked) {m : Schema.Method} (hm : m.Fits s) {t : GroundTask} (ht : t.Fits s) :
    unify s m t = some (s.unify? m t) := by
  refine bindArgs_eq h (List.length_replicate ..) fun q hq => ?_
  obtain ⟨hx, hv⟩ := List.of_mem_zip hq
  exact ⟨hm.task.args q.1 hx, ht.args q.2 hv⟩

/-! ### Instances of methods -/

def instantiateMethod (m : Schema.Method) (binding : List Nat) : Option Schema.Method :=
  if binding.length = m.parameters.length then m.instantiate? binding else none

def groundMethodInstance (fixed : Fact → Option (Option Bool)) (m : Schema.Method) (binding : List Nat) :
    Option (Option Schema.Method) := do
  let m ← instantiateMethod m binding
  match ← assign fixed m.precondition with
  | .bottom => some none
  | precondition => some (some { m with precondition })

namespace Binder

variable (b : Binder)

def methodInstances (s : Symbols) (t : GroundTask) (m : Schema.Method) : Option (List Schema.Method) := do
  match ← unify s m t with
  | some binding => choose (groundMethodInstance b.fixed m) (← b.bindings m.parameters m.precondition binding)
  | none => some []

/-- The instances of the schemas that are listed at the symbol of the task. -/
def methodsOf (s : Symbols) (schemas : List (List Schema.Method)) (t : GroundTask) : Option (List Schema.Method) := do
  gather (b.methodInstances s t) (← schemas[t.symbol]?)

end Binder

/-- The method with one variant of its precondition at a time. -/
def variantsOf (m : Schema.Method) : List Schema.Method :=
  m.precondition.variants.map fun precondition => { m with precondition }

/-- For each symbol of a task the variants of the methods for it. -/
def schemas (s : Symbols) (methods : List Schema.Method) : Option (List (List Schema.Method)) :=
  file (·.task.symbol) id (List.replicate s.tasks.size []) (methods.flatMap variantsOf)

def compound (s : Symbols) (tasks : List GroundTask) : Option (List GroundTask) :=
  keep (fun t => (isPrimitive s t.symbol).map (!·)) tasks

theorem instantiateMethod_eq {m : Schema.Method} {binding : List Nat} (hm : m.Fits s)
    (hlength : binding.length = m.parameters.length) :
    instantiateMethod m binding = some (m.instantiate binding) := by
  have hslots : (m.slots.all fun i => decide (i < binding.length)) = true := by
    refine List.all_eq_true.mpr fun i hi => decide_eq_true ?_
    rw [hlength]
    simp only [Schema.Method.slots, List.mem_append, List.mem_flatMap] at hi
    rcases hi with (hi | hi) | ⟨t, ht, hi⟩
    · exact slots_lt_of_fits hm.task.args i hi
    · exact hm.precondition.slots_lt i hi
    · exact slots_lt_of_fits (hm.network.tasks t ht).args i hi
  rw [instantiateMethod, if_pos hlength, Schema.Method.instantiate?, if_pos hslots]

theorem fits_of_mem_variantsOf {m : Schema.Method} (hm : m.Fits s) {v : Schema.Method}
    (hv : v ∈ variantsOf m) : v.Fits s := by
  obtain ⟨precondition, hprecondition, rfl⟩ := List.mem_map.mp hv
  exact ⟨hm.types, hm.task, (Expr.Over.of_mem_variants hm.precondition hprecondition).2, hm.network⟩

/-- The variants of a method are for its task. -/
theorem filter_variantsOf (methods : List Schema.Method) (k : Nat) :
    (methods.flatMap variantsOf).filter (·.task.symbol == k) =
      (methods.filter (·.task.symbol == k)).flatMap variantsOf := by
  induction methods with
  | nil => rfl
  | cons m methods ih =>
      have hvariants : (variantsOf m).filter (·.task.symbol == k) =
          if m.task.symbol == k then variantsOf m else [] := by
        rw [variantsOf, List.filter_map]
        split
        · next hk => exact congrArg _ (List.filter_eq_self.mpr fun _ _ => hk)
        · next hk => exact List.map_eq_nil_iff.mpr (List.filter_eq_nil_iff.mpr fun _ _ => hk)
      rw [List.flatMap_cons, List.filter_append, ih, hvariants, List.filter_cons]
      split
      · rw [List.flatMap_cons]
      · rw [List.nil_append]

theorem schemas_eq {methods : List Schema.Method} (hmethods : ∀ m ∈ methods, m.Fits s) :
    schemas s methods = some ((List.range s.tasks.size).map fun k =>
      (methods.filter (·.task.symbol == k)).flatMap variantsOf) := by
  have hsymbol : ∀ v ∈ methods.flatMap variantsOf, v.task.symbol < s.tasks.size := by
    intro v hv
    obtain ⟨m, hm, hv⟩ := List.mem_flatMap.mp hv
    obtain ⟨signature, hsignature, -⟩ := (fits_of_mem_variantsOf (hmethods m hm) hv).task.arity
    exact Catalog.lt_size_of_definition? hsignature
  rw [schemas, file_replicate _ hsymbol]
  simp only [List.map_id, filter_variantsOf]

namespace Binder

variable {b : Binder} {bd : HtnPlanner.Binder} {m : Schema.Method} {t : GroundTask}

theorem Serves.groundMethodInstance_eq (h : b.Serves s bd) (hm : m.Fits s) {binding : List Nat}
    (hlength : binding.length = m.parameters.length) :
    groundMethodInstance b.fixed m binding = some (m.ground? bd.fixed binding) := by
  have hassign : assign b.fixed (m.instantiate binding).precondition =
      some ((m.instantiate binding).precondition.assign bd.fixed) :=
    assign_eq fun f hf => h.fixed f ((hm.precondition.predicates.subst binding).lt_size hf)
  simp only [groundMethodInstance, instantiateMethod_eq hm hlength, hassign, Option.bind_eq_bind, Option.bind_some,
    Schema.Method.ground?]
  cases (m.instantiate binding).precondition.assign bd.fixed <;> rfl

theorem Serves.methodInstances_eq (h : b.Serves s bd) (hs : s.Linked) (hm : m.Fits s) (ht : t.Fits s) :
    b.methodInstances s t m = some (bd.methodInstances s t m) := by
  rw [methodInstances, unify_eq hs hm ht, HtnPlanner.Binder.methodInstances]
  cases hunify : s.unify? m t with
  | none => rfl
  | some binding =>
      have hlength : binding.length = m.parameters.length :=
        (Symbols.foldlM_bindArg (List.length_replicate ..) Symbols.typedBinding_unbound hunify).1
      have hbindings := h.bindings_eq hm.types hm.precondition hlength
      simp only [hbindings, Option.bind_eq_bind, Option.bind_some]
      refine choose_eq_some fun values hvalues => h.groundMethodInstance_eq hm ?_
      exact (HtnPlanner.Binder.binds_of_mem_bindings hlength hvalues).length.trans hlength

theorem Serves.methodsOf_eq (h : b.Serves s bd) (hs : s.Linked) {methods : List Schema.Method}
    (hmethods : ∀ m ∈ methods, m.Fits s) {listed : List (List Schema.Method)}
    (hlisted : schemas s methods = some listed) (ht : t.Fits s) :
    b.methodsOf s listed t = some (bd.methodsOf s methods t) := by
  obtain ⟨signature, hsignature, -⟩ := ht.arity
  have hsymbol := Catalog.lt_size_of_definition? hsignature
  obtain rfl := Option.some.inj ((schemas_eq hmethods).symm.trans hlisted)
  rw [methodsOf, List.getElem?_map, List.getElem?_range hsymbol, Option.map_some, Option.bind_eq_bind, Option.bind_some]
  have hinstances : ∀ v ∈ (methods.filter (·.task.symbol == t.symbol)).flatMap variantsOf,
      b.methodInstances s t v = some (bd.methodInstances s t v) := by
    intro v hv
    obtain ⟨m, hm, hv⟩ := List.mem_flatMap.mp hv
    exact h.methodInstances_eq hs (fits_of_mem_variantsOf (hmethods m (List.mem_filter.mp hm).1) hv) ht
  rw [gather_eq_some hinstances, List.flatMap_assoc]
  simp only [variantsOf, List.flatMap_map]
  rfl

end Binder

/-! ### All tasks that come up -/

section

variable {α : Type} [DecidableEq α]

def reachFrom (next : α → Option (List α)) : Nat → List α → List α → Option (List α)
  | 0, _, seen => some seen
  | _ + 1, [], seen => some seen
  | fuel + 1, a :: queue, seen => do
    let fresh := ((← next a).filter (· ∉ seen)).eraseDups
    reachFrom next fuel (queue ++ fresh) (seen ++ fresh)

def reach (next : α → Option (List α)) (bound : Nat) (start : List α) : Option (List α) :=
  reachFrom next bound start.eraseDups start.eraseDups

/-- What holds at the start and is passed on to what comes next lets everything be found. -/
theorem reach_eq {P : α → Prop} {next? : α → Option (List α)} {next : α → List α}
    (hnext : ∀ a, P a → next? a = some (next a) ∧ ∀ b ∈ next a, P b) {start : List α} (hstart : ∀ a ∈ start, P a)
    (bound : Nat) : reach next? bound start = some (HtnPlanner.reach next bound start) := by
  have hfrom : ∀ (fuel : Nat) (queue seen : List α), (∀ a ∈ queue, P a) →
      reachFrom next? fuel queue seen = some (HtnPlanner.reachFrom next fuel queue seen) := by
    intro fuel
    induction fuel with
    | zero => exact fun queue seen _ => rfl
    | succ fuel ih =>
        intro queue seen hqueue
        cases queue with
        | nil => rfl
        | cons a queue =>
            obtain ⟨ha, hqueue⟩ := List.forall_mem_cons.mp hqueue
            obtain ⟨hfound, hkeeps⟩ := hnext a ha
            rw [reachFrom, HtnPlanner.reachFrom, hfound]
            refine ih _ _ fun b hb => ?_
            rcases List.mem_append.mp hb with hb | hb
            · exact hqueue b hb
            · exact hkeeps b (List.mem_filter.mp (List.mem_eraseDups.mp hb)).1
  exact hfrom bound _ _ fun a ha => hstart a (List.mem_eraseDups.mp ha)

end

def compoundTasks (b : Binder) (p : LiftedProblem) (schemas : List (List Schema.Method)) :
    Option (List GroundTask) := do
  let initial ← compound p.symbols p.initialTasks
  reach (fun t => do compound p.symbols ((← b.methodsOf p.symbols schemas t).flatMap (·.subtasks)))
    p.symbols.groundTaskCount initial

def groundMethods (b : Binder) (p : LiftedProblem) : Option (List Schema.Method) := do
  let schemas ← schemas p.symbols p.methods
  let tasks ← compoundTasks b p schemas
  (gather (b.methodsOf p.symbols schemas) tasks).map List.eraseDups

theorem compound_eq {tasks : List GroundTask} (h : ∀ t ∈ tasks, t.Fits s) :
    compound s tasks = some (s.compound tasks) := by
  refine keep_eq_some fun t ht => ?_
  obtain ⟨signature, hsignature, -⟩ := (h t ht).arity
  rw [isPrimitive_eq hsignature]
  rfl

variable {b : Binder} {fixed : Fact → Option Bool}

theorem compoundTasks_eq (hp : p.WellFormed) (hs : p.symbols.Linked) (h : b.Serves p.symbols (p.binder fixed))
    {listed : List (List Schema.Method)} (hlisted : schemas p.symbols p.methods = some listed) :
    compoundTasks b p listed = some (p.compoundTasks (p.binder fixed)) := by
  have hinitial := (LiftedProblem.initialTasks_spec hp).2
  rw [compoundTasks, compound_eq hinitial]
  refine reach_eq (P := fun t => t.Fits p.symbols) (fun t ht => ?_) (fun t ht => ?_) _
  · have hsubtasks : ∀ u ∈ ((p.binder fixed).methodsOf p.symbols p.methods t).flatMap (·.subtasks),
        u.Fits p.symbols := by
      intro u hu
      obtain ⟨m, hm, hum⟩ := List.mem_flatMap.mp hu
      exact (LiftedProblem.subtasks_of_mem_methodsOf hp ht hm).2.2.1 u hum
    rw [h.methodsOf_eq hs hp.methods hlisted ht]
    exact ⟨compound_eq hsubtasks, fun u hu => hsubtasks u (List.mem_filter.mp hu).1⟩
  · exact hinitial t (List.mem_filter.mp ht).1

theorem groundMethods_eq (hp : p.WellFormed) (hs : p.symbols.Linked) (h : b.Serves p.symbols (p.binder fixed)) :
    groundMethods b p = some (p.groundMethods fixed) := by
  have hlisted := schemas_eq hp.methods
  rw [groundMethods, hlisted, Option.bind_eq_bind, Option.bind_some, compoundTasks_eq hp hs h hlisted,
    Option.bind_eq_bind, Option.bind_some, gather_eq_some fun t ht =>
      h.methodsOf_eq hs hp.methods hlisted ((LiftedProblem.compoundTasks_spec hp fixed).1 t ht).1]
  rfl

/-! ### The ground problem -/

/-- Every phase between the naming and the numbering, each with the tables of the ones before. -/
def ofLifted (p : LiftedProblem) : Option GroundProblem := do
  let inertia ← inertia p
  let tables ← tables p
  let grounded ← (binder p inertia tables (fixedValue p inertia)).groundActions p
  let goal ← assign (fixedValue p inertia) p.goal
  let factInertia ← factInertia grounded p.init
  let actions ← simplifyActions factInertia.fixedValue grounded
  let methods ← groundMethods (binder p inertia tables fun f => some (factInertia.fixedValue f)) p
  let primitive := (← actions.mapM groundTask).eraseDups
  let methods := prune primitive methods
  some {
    domainName := p.domainName
    problemName := p.problemName
    symbols := p.symbols
    init := p.init
    inertia := factInertia
    actions
    methods
    goal := goal.assign factInertia.fixedValue
    initialTasks := p.initialTasks
    resolved := p.initialTasks.map (isAchievable primitive methods)
    initialOrder := p.network.order }

theorem ofLifted_eq (hp : p.WellFormed) (hs : p.symbols.Linked) : ofLifted p = some (.ofLifted p) := by
  have hserves : (binder p p.inertia p.tables fun f => some (p.factInertia.fixedValue f)).Serves p.symbols
      (p.binder p.factInertia.fixedValue) := serves_binder hp fun f _ => rfl
  have hmethods := groundMethods_eq hp hs hserves
  have htasks : (HtnPlanner.simplifyActions p.factInertia.fixedValue p.groundActions).mapM groundTask =
      some ((HtnPlanner.simplifyActions p.factInertia.fixedValue p.groundActions).map (·.groundTask)) := by
    refine mapM_eq_some fun a ha => groundTask_eq ?_
    obtain ⟨a', ha', hsimplify⟩ := mem_simplifyActions.mp ha
    obtain ⟨-, rfl⟩ := Schema.Action.simplify?_eq_some.mp hsimplify
    obtain ⟨a₀, -, b, pre, hb, -, rfl⟩ := LiftedProblem.of_mem_groundActions hp ha'
    exact (LiftedProblem.accepts_iff.mp hb).1
  simp only [ofLifted, inertia_eq hp, tables_eq hp, groundActions_eq hp, groundGoal_eq hp, factInertia_eq hp,
    simplifyActions_eq hp, hmethods, htasks, Option.bind_eq_bind, Option.bind_some]
  rfl

end HtnPlanner.Lookup
