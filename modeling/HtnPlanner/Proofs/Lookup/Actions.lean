import HtnPlanner.Proofs.Ground.Inertia
import HtnPlanner.Proofs.Lookup.Binder

/-!
Ground actions are found without an id, a slot or a value that is not there.
-/

namespace HtnPlanner

/-! ### Expressions -/

theorem slots_lt_of_fits {s : Symbols} {n : Nat} {args : List Arg} (h : ∀ x ∈ args, x.Fits s n) :
    ∀ i ∈ args.filterMap Arg.slot?, i < n := by
  intro i hi
  obtain ⟨x, hx, hxi⟩ := List.mem_filterMap.mp hi
  have hfits := h x hx
  cases x with
  | const c => simp [Arg.slot?] at hxi
  | slot j =>
      obtain rfl : j = i := by simpa [Arg.slot?] using hxi
      exact hfits

namespace Expr

variable {s : Symbols} {n : Nat} {e : Expr} {v w : Fact → Option Bool}

theorem settle_congr (positive : Bool)
    (h : ∀ q ∈ e.signedAtoms positive, ∀ f, q.2.fact? = some f → v f = w f) : e.settle v = e.settle w := by
  induction e using Expr.induct generalizing positive with
  | top | bottom | equal x y | task t => rfl
  | atom a =>
      simp only [settle, settleAtom]
      cases hf : a.fact? with
      | none => rfl
      | some f => rw [Option.bind_some, Option.bind_some, h _ List.mem_cons_self f hf]
  | neg e ih => exact congrArg neg (ih (!positive) h)
  | conj es ih =>
      simp only [signedAtoms, signedAtomsAll_eq_flatMap, List.mem_flatMap] at h
      simp only [settle, settleAll_eq_map, conj.injEq, List.map_inj_left]
      exact fun e he => ih e he positive fun q hq => h q ⟨e, he, hq⟩
  | disj es ih =>
      simp only [signedAtoms, signedAtomsAll_eq_flatMap, List.mem_flatMap] at h
      simp only [settle, settleAll_eq_map, disj.injEq, List.map_inj_left]
      exact fun e he => ih e he positive fun q hq => h q ⟨e, he, hq⟩

/-- Only the facts of an expression decide what is settled in it. -/
theorem assign_congr (h : ∀ f ∈ e.facts, v f = w f) : e.assign v = e.assign w := by
  rw [assign, settle_congr true fun q hq f hf => h f (List.mem_filterMap.mpr ⟨q, hq, hf⟩), ← assign]

/-- The predicates are there. -/
def Predicates (s : Symbols) : Expr → Prop := Over (·.predicate < s.predicates.size) fun _ _ => True

theorem Fits.predicates (h : e.Fits s n) : e.Predicates s := by
  refine Over.mono h (fun a ha => ?_) fun _ _ _ => trivial
  obtain ⟨signature, hsignature, -⟩ := ha.arity
  exact Catalog.lt_size_of_definition? hsignature

theorem Predicates.subst (h : e.Predicates s) (b : List Nat) : (e.subst b).Predicates s :=
  Over.subst h (fun _ ha => ha) fun _ _ _ => trivial

theorem Predicates.lt_size (h : e.Predicates s) {f : Fact} (hf : f ∈ e.facts) :
    f.predicate < s.predicates.size := by
  obtain ⟨q, hq, hfact⟩ := List.mem_filterMap.mp hf
  obtain ⟨cs, -, rfl⟩ := Option.map_eq_some_iff.mp hfact
  exact Over.of_mem_signedAtoms h hq

theorem Fits.slots_lt (h : e.Fits s n) : ∀ i ∈ e.slots, i < n := by
  induction e using Expr.induct with
  | top | bottom => exact fun i hi => absurd hi List.not_mem_nil
  | task t => exact absurd h id
  | atom a => exact slots_lt_of_fits (Atom.Fits.args h)
  | equal x y =>
      have hfits : x.Fits s n ∧ y.Fits s n := h
      exact slots_lt_of_fits (List.forall_mem_cons.mpr ⟨hfits.1, List.forall_mem_singleton.mpr hfits.2⟩)
  | neg e ih => exact ih h
  | conj es ih =>
      simp only [slots, slotsAll_eq_flatMap, List.mem_flatMap]
      rintro i ⟨e, he, hi⟩
      exact ih e he (over_conj.mp h e he) i hi
  | disj es ih =>
      simp only [slots, slotsAll_eq_flatMap, List.mem_flatMap]
      rintro i ⟨e, he, hi⟩
      exact ih e he (over_disj.mp h e he) i hi

theorem IsEffect.fits (h : e.IsEffect s n) : e.Fits s n := by
  obtain ⟨es, rfl, h⟩ := h
  refine over_conj.mpr fun l hl => ?_
  obtain ⟨a, ha, rfl | rfl⟩ := h l hl
  · exact ha
  · exact ha

end Expr

namespace Lookup

variable {s : Symbols} {p : LiftedProblem}

/-- `Expr.assign`, when there is an answer for every fact of the expression. -/
def assign (value : Fact → Option (Option Bool)) (e : Expr) : Option Expr :=
  if e.facts.all fun f => (value f).isSome then some (e.assign fun f => (value f).join) else none

theorem assign_eq {value? : Fact → Option (Option Bool)} {value : Fact → Option Bool} {e : Expr}
    (h : ∀ f ∈ e.facts, value? f = some (value f)) : assign value? e = some (e.assign value) := by
  rw [assign, if_pos (List.all_eq_true.mpr fun f hf => by rw [h f hf]; rfl),
    Expr.assign_congr fun f hf => by rw [h f hf, Option.join_some]]

/-! ### What is known of the predicates -/

def inertia (p : LiftedProblem) : Option PredicateInertia :=
  let atoms := p.actions.flatMap fun a => a.effect.signedAtoms true
  if atoms.all fun q => q.2.predicate < p.symbols.predicates.size then some p.inertia else none

def tables (p : LiftedProblem) : Option (List FactTable) :=
  if p.init.all fun f => f.predicate < p.symbols.predicates.size then
    (p.symbols.predicates.entries.mapIdx fun i e =>
      tableOf e.2.length ((p.init.filter (·.predicate == i)).map (·.args))).mapM id
  else
    none

def binder (p : LiftedProblem) (inertia : PredicateInertia) (tables : List FactTable)
    (fixed : Fact → Option (Option Bool)) : Binder where
  domain := p.symbols.domain?
  table := fun i => tables[i]?
  closed := fun i => (inertia.classes[i]?).map fun c => c.fixedValue false == some false
  fixed

/-- What never changes of the facts of a predicate. -/
def fixedValue (p : LiftedProblem) (inertia : PredicateInertia) (f : Fact) : Option (Option Bool) :=
  (inertia.classes[f.predicate]?).map (·.fixedValue (p.init.contains f))

theorem inertia_eq (hp : p.WellFormed) : inertia p = some p.inertia := by
  refine if_pos (List.all_eq_true.mpr fun q hq => ?_)
  obtain ⟨a, ha, hq⟩ := List.mem_flatMap.mp hq
  exact decide_eq_true (Expr.Over.of_mem_signedAtoms (hp.actions a ha).effect.fits.predicates hq)

theorem length_of_mem_init (hp : p.WellFormed) {i : Nat} {signature : List Nat}
    (h : p.symbols.predicates.definition? i = some signature) :
    ∀ args ∈ (p.init.filter (·.predicate == i)).map (·.args), args.length = signature.length := by
  intro args hargs
  obtain ⟨f, hf, rfl⟩ := List.mem_map.mp hargs
  obtain ⟨hf, hpredicate⟩ := List.mem_filter.mp hf
  obtain ⟨signature', hsignature, hlength⟩ := hp.init f hf
  rw [beq_iff_eq.mp hpredicate, h] at hsignature
  rw [Option.some.inj hsignature, hlength]

theorem tables_eq (hp : p.WellFormed) : tables p = some p.tables := by
  have hinit : (p.init.all fun f => decide (f.predicate < p.symbols.predicates.size)) = true := by
    refine List.all_eq_true.mpr fun f hf => ?_
    obtain ⟨signature, hsignature, -⟩ := hp.init f hf
    exact decide_eq_true (Catalog.lt_size_of_definition? hsignature)
  have hmapM : ∀ l : List (Option FactTable), ∀ l' : List FactTable, l = l'.map some → l.mapM id = some l' := by
    rintro _ l' rfl
    rw [List.mapM_map]
    exact (mapM_eq_some (f := id) fun _ _ => rfl).trans (by rw [List.map_id])
  rw [tables, if_pos hinit]
  apply hmapM
  rw [LiftedProblem.tables]
  apply List.ext_getElem (by simp)
  intro i hi hi'
  have hi : i < p.symbols.predicates.entries.length := by simpa using hi
  have hdefinition : p.symbols.predicates.definition? i = some (p.symbols.predicates.entries[i]).2 := by
    simp [Catalog.definition?, List.getElem?_eq_getElem hi]
  simpa using (tableOf_eq (length_of_mem_init hp hdefinition)).1

theorem class_eq (p : LiftedProblem) {i : Nat} (hi : i < p.symbols.predicates.size) :
    p.inertia.classes[i]? = some (p.inertia.of i) := by
  have hlength : i < p.inertia.classes.length := by
    simpa [LiftedProblem.inertia, PredicateInertia.ofActions] using hi
  simp [PredicateInertia.of, List.getD_eq_getElem?_getD, List.getElem?_eq_getElem hlength]

theorem fixedValue_eq (p : LiftedProblem) {f : Fact} (hf : f.predicate < p.symbols.predicates.size) :
    fixedValue p p.inertia f = some (p.fixedValue f) := by
  rw [fixedValue, class_eq p hf]
  rfl

theorem serves_binder (hp : p.WellFormed) {fixed? : Fact → Option (Option Bool)} {fixed : Fact → Option Bool}
    (hfixed : ∀ f : Fact, f.predicate < p.symbols.predicates.size → fixed? f = some (fixed f)) :
    (binder p p.inertia p.tables fixed?).Serves p.symbols (p.binder fixed) where
  domain t ht := by
    simp [binder, LiftedProblem.binder, Symbols.domain?, Symbols.domain, List.getElem?_eq_getElem ht]
  table i signature h := by
    have hi : i < p.tables.length := by
      simpa [LiftedProblem.tables, Catalog.size] using Catalog.lt_size_of_definition? h
    have htable : p.tables[i]? = some ((p.binder fixed).table i) := by
      simp [LiftedProblem.binder, List.getD_eq_getElem?_getD, List.getElem?_eq_getElem hi]
    refine ⟨htable, (LiftedProblem.table_spec h).1, ?_⟩
    obtain ⟨e, he, rfl⟩ := Option.map_eq_some_iff.mp h
    have huniform := (tableOf_eq (length_of_mem_init hp h)).2
    simpa [LiftedProblem.binder, LiftedProblem.tables, List.getD_eq_getElem?_getD, he] using huniform
  closed i hi := by
    simp [binder, class_eq p hi, LiftedProblem.binder, PredicateInertia.isClosed]
  fixed f hf := hfixed f hf

/-! ### Instances of actions -/

def instantiateAction (a : Schema.Action) (binding : List Nat) : Option Schema.Action :=
  if binding.length = a.parameters.length then a.instantiate? binding else none

def groundInstance (fixed : Fact → Option (Option Bool)) (a : Schema.Action) (binding : List Nat) :
    Option (Option Schema.Action) := do
  let a ← instantiateAction a binding
  match ← assign fixed a.precondition with
  | .bottom => some none
  | precondition => some (some { a with precondition })

def groundTask (a : Schema.Action) : Option GroundTask :=
  if a.args.length = a.parameters.length then some a.groundTask else none

namespace Binder

def actionInstances (b : Binder) (a : Schema.Action) : Option (List Schema.Action) := do
  let bindings ← b.bindings a.parameters a.precondition (List.replicate a.parameters.length none)
  choose (groundInstance b.fixed a) bindings

def groundAction (b : Binder) (a : Schema.Action) : Option (List Schema.Action) :=
  gather (fun precondition => b.actionInstances { a with precondition }) a.precondition.variants

def groundActions (b : Binder) (p : LiftedProblem) : Option (List Schema.Action) :=
  (gather b.groundAction p.actions).map List.eraseDups

end Binder

theorem instantiateAction_eq {a : Schema.Action} {binding : List Nat} (ha : a.Fits s)
    (hlength : binding.length = a.parameters.length) :
    instantiateAction a binding = some (a.instantiate binding) := by
  have hslots : (a.slots.all fun i => decide (i < binding.length)) = true := by
    refine List.all_eq_true.mpr fun i hi => decide_eq_true ?_
    rw [hlength]
    rcases List.mem_append.mp hi with hi | hi
    · exact ha.precondition.slots_lt i hi
    · exact ha.effect.fits.slots_lt i hi
  rw [instantiateAction, if_pos hlength, Schema.Action.instantiate?, if_pos hslots]

theorem groundTask_eq {a : Schema.Action} (h : a.args.length = a.parameters.length) :
    groundTask a = some a.groundTask := if_pos h

namespace Binder

variable {b : Binder} {bd : HtnPlanner.Binder} {a : Schema.Action}

theorem Serves.groundInstance_eq (h : b.Serves s bd) (ha : a.Fits s) {binding : List Nat}
    (hlength : binding.length = a.parameters.length) :
    groundInstance b.fixed a binding = some (a.ground? bd.fixed binding) := by
  have hassign : assign b.fixed (a.instantiate binding).precondition =
      some ((a.instantiate binding).precondition.assign bd.fixed) :=
    assign_eq fun f hf => h.fixed f ((ha.precondition.predicates.subst binding).lt_size hf)
  simp only [groundInstance, instantiateAction_eq ha hlength, hassign, Option.bind_eq_bind, Option.bind_some,
    Schema.Action.ground?]
  cases (a.instantiate binding).precondition.assign bd.fixed <;> rfl

theorem Serves.actionInstances_eq (h : b.Serves s bd) (ha : a.Fits s) :
    b.actionInstances a = some (bd.actionInstances a) := by
  have hbindings := h.bindings_eq ha.types ha.precondition (List.length_replicate (a := (none : Option Nat)))
  rw [actionInstances, hbindings]
  refine choose_eq_some fun binding hbinding => h.groundInstance_eq ha ?_
  have hbinds := HtnPlanner.Binder.binds_of_mem_bindings (List.length_replicate ..) hbinding
  exact hbinds.length.trans (List.length_replicate ..)

theorem Serves.groundAction_eq (h : b.Serves s bd) (ha : a.Fits s) :
    b.groundAction a = some (bd.groundAction a) :=
  gather_eq_some fun _ hv => h.actionInstances_eq
    ⟨ha.types, (Expr.Over.of_mem_variants ha.precondition hv).2, ha.effect, ha.primitive⟩

end Binder

theorem groundActions_eq (hp : p.WellFormed) :
    (binder p p.inertia p.tables (fixedValue p p.inertia)).groundActions p = some p.groundActions := by
  have hserves := serves_binder hp fun f hf => fixedValue_eq p hf
  rw [Binder.groundActions, gather_eq_some fun a ha => hserves.groundAction_eq (hp.actions a ha)]
  rfl

theorem groundGoal_eq (hp : p.WellFormed) : assign (fixedValue p p.inertia) p.goal = some p.groundGoal :=
  assign_eq fun _ hf => fixedValue_eq p (hp.goal.predicates.lt_size hf)

/-! ### Simplified actions -/

def factInertia (actions : List Schema.Action) (init : List Fact) : Option FactInertia :=
  if actions.all fun a => a.effect.literals?.isSome then some (.ofActions actions init) else none

def simplify (fixed : Fact → Option Bool) (a : Schema.Action) : Option (Option Schema.Action) := do
  match a.precondition.assign fixed with
  | .bottom => some none
  | precondition =>
    let effect := ((← a.effect.literals?).filter fun l => (fixed l.fact).isNone).map Expr.ofLiteral
    some (some { a with precondition, effect := .conj effect })

def simplifyActions (fixed : Fact → Option Bool) (actions : List Schema.Action) : Option (List Schema.Action) :=
  (choose (simplify fixed) actions).map List.eraseDups

theorem factInertia_eq (hp : p.WellFormed) : factInertia p.groundActions p.init = some p.factInertia :=
  if_pos (List.all_eq_true.mpr fun a ha => by
    rw [(LiftedProblem.instantiates_groundActions hp a ha).literals?_effect hp]
    rfl)

theorem simplifyActions_eq (hp : p.WellFormed) (fixed : Fact → Option Bool) :
    simplifyActions fixed p.groundActions = some (HtnPlanner.simplifyActions fixed p.groundActions) := by
  rw [simplifyActions, choose_eq_some (f := (·.simplify? fixed)) fun a ha => ?_]
  · rfl
  · rw [simplify, Schema.Action.simplify?, (LiftedProblem.instantiates_groundActions hp a ha).literals?_effect hp]
    cases a.precondition.assign fixed <;> rfl

end Lookup

end HtnPlanner
