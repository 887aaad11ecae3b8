import HtnPlanner.Proofs.Lookup.Symbols

/-!
The names of a domain and a problem resolve to ids under which everything that is looked up is found.
-/

namespace HtnPlanner.Lookup

open Definition (TypeRef Typed Term Formula)
open Symbols (Linked IsType)

namespace Naming

def type (ref : TypeRef) : Naming Nat := resolveType ref

def types (typed : List Typed) : Naming (List Nat) := typed.mapM (type ·.type)

def declareTypeNames (typed : List Typed) : Naming Unit :=
  typed.forM fun t => modify? fun s => (declareType t.value s).map (·.2)

def linkType (t : Typed) : Naming Unit := do
  let sub ← modifyGet? (declareType t.value)
  t.type.names.forM fun name => do
    let sup ← modifyGet? (declareType name)
    modify? (addSupertype sub sup)

def declareTypes (typed : List Typed) : Naming Unit := do
  declareTypeNames typed
  typed.forM linkType

def declareConstant (t : Typed) : Naming Unit := do
  let type ← type t.type
  let _ ← (Lookup.declareConstant t.value type : Naming Nat)

def declarePredicate (p : Definition.Predicate) : Naming Unit := do
  let signature ← types p.parameters
  let _ ← (Lookup.declarePredicate p.name signature : Naming Nat)

def declareTask (name : String) (parameters : List Typed) (primitive : Bool) : Naming Unit := do
  let signature ← types parameters
  let _ ← (Lookup.declareTask name ⟨signature, primitive⟩ : Naming Nat)

def addParameter (scope : Scope) (t : Typed) : Naming Scope := do
  if t.value ∈ scope.names then
    throw (.conflict .parameter t.value)
  let type ← type t.type
  return { scope with
    names := scope.names ++ [t.value]
    types := scope.types ++ [type] }

def scope (name : String) (parameters : List Typed) : Naming Scope :=
  parameters.foldlM addParameter { name }

theorem type_agrees (ref : TypeRef) : Agrees Linked (type ref) (HtnPlanner.Naming.type ref) IsType :=
  fun _ hs => resolveType_finds hs ref

theorem types_agrees (typed : List Typed) :
    Agrees Linked (types typed) (HtnPlanner.Naming.types typed) fun _ => Linked :=
  .mapM fun t _ => (type_agrees t.type).mono (fun _ h => h) fun _ _ h => h.linked

theorem declareTypeNames_agrees (typed : List Typed) :
    Agrees Linked (declareTypeNames typed) (HtnPlanner.Naming.declareTypeNames typed) fun _ => Linked := by
  refine .forM fun t _ => .modify fun s hs => ?_
  obtain ⟨hdeclare, htype⟩ := declareType_eq hs t.value
  exact ⟨by rw [hdeclare]; rfl, htype.linked⟩

theorem linkType_agrees (t : Typed) :
    Agrees Linked (linkType t) (HtnPlanner.Naming.linkType t) fun _ => Linked := by
  refine Agrees.bind (.modifyGet fun s hs => declareType_eq hs t.value) fun sub => ?_
  refine Agrees.mono (.forM (P := IsType sub) fun name _ => ?_) (fun _ h => h) fun _ _ h => h.linked
  refine Agrees.bind (Q := fun sup s => IsType sub s ∧ sup < s.types.length)
    (.modifyGet fun s hs => ?_) fun sup => .modify fun s hs => ?_
  · obtain ⟨hdeclare, htype⟩ := declareType_eq hs.linked name
    have hgrows := (Symbols.follows_declareType name s).1.types
    exact ⟨hdeclare, ⟨htype.linked, Nat.lt_of_lt_of_le hs.lt hgrows⟩, htype.lt⟩
  · obtain ⟨hadd, hlinked⟩ := addSupertype_eq ⟨hs.1.linked, hs.2⟩ hs.1.lt
    exact ⟨hadd, hlinked, Nat.lt_of_lt_of_le hs.1.lt (Symbols.follows_addSupertype sub sup s).types⟩

theorem declareTypes_agrees (typed : List Typed) :
    Agrees Linked (declareTypes typed) (HtnPlanner.Naming.declareTypes typed) fun _ => Linked :=
  (declareTypeNames_agrees typed).bind fun _ => .forM fun t _ => linkType_agrees t

theorem declareConstant_agrees (t : Typed) :
    Agrees Linked (declareConstant t) (HtnPlanner.Naming.declareConstant t) fun _ => Linked :=
  (type_agrees t.type).bind fun _ => Agrees.bind (fun _ hs => declareConstant_finds hs t.value) fun _ =>
    .pure fun _ hs => hs

theorem declarePredicate_agrees (p : Definition.Predicate) :
    Agrees Linked (declarePredicate p) (HtnPlanner.Naming.declarePredicate p) fun _ => Linked :=
  (types_agrees p.parameters).bind fun signature =>
    Agrees.bind (fun _ hs => declarePredicate_finds hs p.name signature) fun _ => .pure fun _ hs => hs

theorem declareTask_agrees (name : String) (parameters : List Typed) (primitive : Bool) :
    Agrees Linked (declareTask name parameters primitive) (HtnPlanner.Naming.declareTask name parameters primitive)
      fun _ => Linked :=
  (types_agrees parameters).bind fun signature =>
    Agrees.bind (fun _ hs => declareTask_finds hs name ⟨signature, primitive⟩) fun _ => .pure fun _ hs => hs

theorem addParameter_agrees (sc : Scope) (t : Typed) :
    Agrees Linked (addParameter sc t) (HtnPlanner.Naming.addParameter sc t) fun _ => Linked := by
  have hrest := (type_agrees t.type).bind (R := fun _ => Linked) fun type =>
    .pure (a := { sc with names := sc.names ++ [t.value], types := sc.types ++ [type] }) fun _ hs => hs.linked
  rw [addParameter, HtnPlanner.Naming.addParameter]
  split
  · exact Agrees.bind (Q := fun _ => Linked) .throw fun _ => hrest
  · exact hrest

theorem scope_agrees (name : String) (parameters : List Typed) :
    Agrees Linked (scope name parameters) (HtnPlanner.Naming.scope name parameters) fun _ => Linked :=
  .foldlM fun sc t _ => addParameter_agrees sc t

end Naming

/-! ### Names of the symbols -/

def knownPredicate (s : Symbols) (name : String) (arity : Nat) : Work Nat :=
  match s.predicates.id? name with
  | some p => do
    let signature ← ExceptT.lift (s.predicates.definition? p)
    ofExcept (checkArity name signature.length arity)
    return p
  | none => throw (.unknownPredicate name)

def knownTask (s : Symbols) (name : String) (arity : Nat) : Work Nat :=
  match s.tasks.id? name with
  | some t => do
    let signature ← ExceptT.lift (s.tasks.definition? t)
    ofExcept (checkArity name signature.parameters.length arity)
    return t
  | none => throw (.unknownTask name)

namespace Scope

variable (scope : Scope) (s : Symbols)

def atom (a : Definition.Atom Term) : Work Atom := do
  let predicate ← knownPredicate s a.name a.values.length
  return ⟨predicate, ← ofExcept (a.values.mapM (scope.arg s))⟩

def task (a : Definition.Atom Term) : Work TaskRef := do
  let symbol ← knownTask s a.name a.values.length
  return ⟨symbol, ← ofExcept (a.values.mapM (scope.arg s))⟩

mutual

def formula : Formula → Work Expr
  | .atom a => .atom <$> atom scope s a
  | .conj fs => .conj <$> formulas fs
  | .disj fs => .disj <$> formulas fs
  | .neg f => .neg <$> formula f
  | .imply f g => do
    let f ← formula f
    return .disj [.neg f, ← formula g]
  | .equal a b => do
    let a ← ofExcept (scope.arg s a)
    return .equal a (← ofExcept (scope.arg s b))

def formulas : List Formula → Work (List Expr)
  | [] => pure []
  | f :: fs => do
    let e ← formula f
    return e :: (← formulas fs)

end

def condition (fs : List Formula) : Work Expr := (fun es => (Expr.conj es).simplify) <$> formulas scope s fs

def effect : Definition.Effect → Work Expr
  | .add a => .atom <$> atom scope s a
  | .delete a => (fun a => .neg (.atom a)) <$> atom scope s a

def effects (es : List Definition.Effect) : Work Expr := .conj <$> es.mapM (effect scope s)

/-- The positions of an order are those of subtasks. -/
def network (n : Definition.Network) : Work Schema.Network := do
  let tasks ← n.subtasks.mapM (task scope s ·.task)
  let order ← ofExcept (n.ordering.mapM (scope.precedence n.subtasks))
  ExceptT.lift (if FinRel.inRange tasks.length order then some ⟨tasks, order⟩ else none)

end Scope

theorem knownPredicate_finds (s : Symbols) (name : String) (arity : Nat) :
    Finds (knownPredicate s name arity) (HtnPlanner.knownPredicate s name arity) := by
  rw [knownPredicate, HtnPlanner.knownPredicate]
  cases hid : s.predicates.id? name with
  | none => exact .throw _
  | some p =>
      obtain ⟨signature, hsignature⟩ := Catalog.exists_definition? hid
      simp only [hsignature, Option.elim_some]
      exact .found rfl ((Finds.ofExcept _).bind fun _ _ => .pure p)

theorem knownTask_finds (s : Symbols) (name : String) (arity : Nat) :
    Finds (knownTask s name arity) (HtnPlanner.knownTask s name arity) := by
  rw [knownTask, HtnPlanner.knownTask]
  cases hid : s.tasks.id? name with
  | none => exact .throw _
  | some t =>
      obtain ⟨signature, hsignature⟩ := Catalog.exists_definition? hid
      simp only [hsignature, Option.elim_some]
      exact .found rfl ((Finds.ofExcept _).bind fun _ _ => .pure t)

namespace Scope

variable (sc : HtnPlanner.Scope) (s : Symbols)

theorem atom_finds (a : Definition.Atom Term) : Finds (atom sc s a) (sc.atom s a) :=
  (knownPredicate_finds s a.name a.values.length).bind fun p _ =>
    (Finds.ofExcept _).bind fun args _ => .pure (⟨p, args⟩ : Atom)

theorem task_finds (a : Definition.Atom Term) : Finds (task sc s a) (sc.task s a) :=
  (knownTask_finds s a.name a.values.length).bind fun t _ =>
    (Finds.ofExcept _).bind fun args _ => .pure (⟨t, args⟩ : TaskRef)

theorem formulas_finds {fs : List Formula} (h : ∀ f ∈ fs, Finds (formula sc s f) (sc.formula s f)) :
    Finds (formulas sc s fs) (sc.formulas s fs) := by
  induction fs with
  | nil => exact .pure []
  | cons f fs ih =>
      rw [formulas, HtnPlanner.Scope.formulas]
      exact (h f List.mem_cons_self).bind fun e _ =>
        (ih fun g hg => h g (List.mem_cons_of_mem f hg)).bind fun es _ => .pure (e :: es)

theorem formula_finds (f : Formula) : Finds (formula sc s f) (sc.formula s f) := by
  induction f using Definition.Formula.induct with
  | atom a =>
      rw [formula, HtnPlanner.Scope.formula]
      exact (atom_finds sc s a).map Expr.atom
  | conj fs ih =>
      rw [formula, HtnPlanner.Scope.formula]
      exact (formulas_finds sc s ih).map Expr.conj
  | disj fs ih =>
      rw [formula, HtnPlanner.Scope.formula]
      exact (formulas_finds sc s ih).map Expr.disj
  | neg f ih =>
      rw [formula, HtnPlanner.Scope.formula]
      exact ih.map Expr.neg
  | imply f g ihf ihg =>
      rw [formula, HtnPlanner.Scope.formula]
      exact ihf.bind fun d _ => ihg.bind fun e _ => .pure (Expr.disj [.neg d, e])
  | equal a b =>
      rw [formula, HtnPlanner.Scope.formula]
      exact (Finds.ofExcept _).bind fun x _ => (Finds.ofExcept _).bind fun y _ => .pure (Expr.equal x y)

theorem condition_finds (fs : List Formula) : Finds (condition sc s fs) (sc.condition s fs) :=
  (formulas_finds sc s fun f _ => formula_finds sc s f).map _

theorem effects_finds (es : List Definition.Effect) : Finds (effects sc s es) (sc.effects s es) := by
  refine Finds.map (.mapM fun e _ => ?_) _
  cases e with
  | add a => exact (atom_finds sc s a).map Expr.atom
  | delete a => exact (atom_finds sc s a).map _

theorem network_finds (n : Definition.Network) : Finds (network sc s n) (sc.network s n) := by
  refine (Finds.mapM fun t _ => task_finds sc s t.task).bind fun tasks htasks => ?_
  refine (Finds.ofExcept _).bind fun order horder => .lift ?_
  have hlength := (Except.mapM_eq_ok htasks).1
  have hrange : FinRel.inRange tasks.length order = true := by
    simp only [FinRel.inRange, List.all_eq_true, Bool.and_eq_true, decide_eq_true_eq, hlength]
    intro q hq
    obtain ⟨p, -, hp⟩ := (Except.mapM_eq_ok horder).2 q hq
    exact Scope.precedence_lt hp
  rw [if_pos hrange]

end Scope

/-! ### The whole problem -/

def initialFact (s : Symbols) (a : Definition.Atom String) : Work Fact := do
  let predicate ← knownPredicate s a.name a.values.length
  return ⟨predicate, ← ofExcept (a.values.mapM (knownConstant s))⟩

def initialFacts (s : Symbols) (init : List (Definition.Atom String)) : Work (List Fact) :=
  List.eraseDups <$> init.mapM (initialFact s)

namespace Naming

def action (a : Definition.Action) : Naming Schema.Action := do
  let scope ← scope a.name a.parameters
  let s ← get
  let precondition ← Scope.condition scope s a.preconditions
  let effect ← Scope.effects scope s a.effects
  let task ← match s.tasks.id? a.name with
    | some t => pure t
    | none => throw (.unknownTask a.name)
  return { name := a.name, task, parameters := scope.types, precondition, effect }

def method (m : Definition.Method) : Naming Schema.Method := do
  let scope ← scope m.name m.parameters
  let s ← get
  let task ← Scope.task scope s m.task
  let precondition ← Scope.condition scope s m.preconditions
  let network ← Scope.network scope s m.network
  return { name := m.name, parameters := scope.types, task, precondition, network }

def declare (domain : Definition.Domain) (problem : Definition.Problem) : Naming Unit := do
  declareTypes domain.types
  domain.constants.forM declareConstant
  problem.objects.forM declareConstant
  modify? close
  domain.predicates.forM declarePredicate
  domain.tasks.forM fun t => declareTask t.name t.parameters false
  domain.actions.forM fun a => declareTask a.name a.parameters true

def problem (domain : Definition.Domain) (problem : Definition.Problem) : Naming LiftedProblem := do
  declare domain problem
  let actions ← domain.actions.mapM action
  let methods ← domain.methods.mapM method
  let symbols ← get
  let init ← initialFacts symbols problem.init
  let scope : Scope := { name := problem.name }
  let goal ← Scope.condition scope symbols problem.goal
  let network ← Scope.network scope symbols problem.htn
  return {
    domainName := domain.name, problemName := problem.name, symbols, init, actions, methods, goal,
    network }

end Naming

def ofDefinitions (domain : Option Definition.Domain) (problem : Option Definition.Problem) :
    Option (Except GroundingError LiftedProblem) :=
  match domain, problem with
  | none, _ => some (.error (.missingInput .domain))
  | some _, none => some (.error (.missingInput .problem))
  | some d, some p => ((Naming.problem d p).run' {}).run

theorem initialFacts_finds (s : Symbols) (init : List (Definition.Atom String)) :
    Finds (initialFacts s init) (HtnPlanner.initialFacts s init) := by
  refine Finds.map (.mapM fun a _ => ?_) _
  exact (knownPredicate_finds s a.name a.values.length).bind fun p _ =>
    (Finds.ofExcept _).bind fun args _ => .pure (⟨p, args⟩ : Fact)

namespace Naming

theorem action_agrees (a : Definition.Action) :
    Agrees Linked (action a) (HtnPlanner.Naming.action a) fun _ => Linked := by
  refine (scope_agrees a.name a.parameters).bind fun sc => Agrees.get.bind fun s => ?_
  refine (Agrees.lift (Scope.condition_finds sc s _)).bind fun pre => ?_
  refine (Agrees.lift (Scope.effects_finds sc s _)).bind fun eff => ?_
  cases hid : s.tasks.id? a.name with
  | none => exact Agrees.throw.bind (Q := fun _ _ => False) fun _ _ hs => hs.elim
  | some t =>
      refine (Agrees.pure (Q := fun _ s' => s = s' ∧ Linked s') fun _ hs => hs).bind fun t => ?_
      exact .pure fun _ hs => hs.2

theorem method_agrees (m : Definition.Method) :
    Agrees Linked (method m) (HtnPlanner.Naming.method m) fun _ => Linked := by
  refine (scope_agrees m.name m.parameters).bind fun sc => Agrees.get.bind fun s => ?_
  refine (Agrees.lift (Scope.task_finds sc s _)).bind fun task => ?_
  refine (Agrees.lift (Scope.condition_finds sc s _)).bind fun pre => ?_
  exact (Agrees.lift (Scope.network_finds sc s _)).bind fun network => .pure fun _ hs => hs.2

theorem declare_agrees (domain : Definition.Domain) (problem : Definition.Problem) :
    Agrees Linked (declare domain problem) (HtnPlanner.Naming.declare domain problem) fun _ => Linked := by
  refine (declareTypes_agrees domain.types).bind fun _ => ?_
  refine (Agrees.forM fun t _ => declareConstant_agrees t).bind fun _ => ?_
  refine (Agrees.forM fun t _ => declareConstant_agrees t).bind fun _ => ?_
  refine (Agrees.modify (Q := fun _ => Linked) fun s hs => ⟨close_eq hs, hs.close⟩).bind fun _ => ?_
  refine (Agrees.forM fun p _ => declarePredicate_agrees p).bind fun _ => ?_
  refine (Agrees.forM fun t _ => declareTask_agrees t.name t.parameters false).bind fun _ => ?_
  exact .forM fun a _ => declareTask_agrees a.name a.parameters true

theorem problem_agrees (domain : Definition.Domain) (pr : Definition.Problem) :
    Agrees Linked (problem domain pr) (HtnPlanner.Naming.problem domain pr) fun p _ => p.symbols.Linked := by
  refine (declare_agrees domain pr).bind fun _ => ?_
  refine (Agrees.mapM fun a _ => action_agrees a).bind fun actions => ?_
  refine (Agrees.mapM fun m _ => method_agrees m).bind fun methods => Agrees.get.bind fun s => ?_
  refine (Agrees.lift (initialFacts_finds s _)).bind fun init => ?_
  refine (Agrees.lift (Scope.condition_finds _ s _)).bind fun goal => ?_
  exact (Agrees.lift (Scope.network_finds _ s _)).bind fun network => .pure fun t hs => hs.1 ▸ hs.2

end Naming

theorem linked_start : Linked {} := by decide

theorem ofDefinitions_eq (domain : Option Definition.Domain) (problem : Option Definition.Problem) :
    ofDefinitions domain problem = some (LiftedProblem.ofDefinitions domain problem) ∧
      ∀ p, LiftedProblem.ofDefinitions domain problem = .ok p → p.symbols.Linked := by
  cases domain with
  | none => exact ⟨rfl, fun p hp => by cases hp⟩
  | some d =>
      cases problem with
      | none => exact ⟨rfl, fun p hp => by cases hp⟩
      | some pr =>
          obtain ⟨hfinds, hlinked⟩ := Naming.problem_agrees d pr {} linked_start
          refine ⟨hfinds.map _, fun p hp => ?_⟩
          obtain ⟨⟨q, s⟩, hq, rfl⟩ := Except.map_eq_ok.mp hp
          exact hlinked q s hq

end HtnPlanner.Lookup
