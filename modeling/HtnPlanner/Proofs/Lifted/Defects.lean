import HtnPlanner.Lifted.Naming
import HtnPlanner.Proofs.Symbols.History
import Mathlib.Data.List.Duplicate

/-!
What a domain and a problem refer to, what they declare, and what is wrong where one does not match the other. All of
this is said of the definitions as they are written down; a well-formed domain and problem has no defect but types that
are unknown.
-/

namespace HtnPlanner

namespace Definition

/-! ### What is referred to -/

inductive Formula.Within (g : Formula) : Formula → Prop
  | self : Within g g
  | conj {f : Formula} {fs : List Formula} : f ∈ fs → Within g f → Within g (.conj fs)
  | disj {f : Formula} {fs : List Formula} : f ∈ fs → Within g f → Within g (.disj fs)
  | neg {f : Formula} : Within g f → Within g (.neg f)
  | premise {f h : Formula} : Within g f → Within g (.imply f h)
  | conclusion {f h : Formula} : Within g h → Within g (.imply f h)

theorem Formula.Within.trans {f g h : Formula} (hfg : f.Within g) (hgh : g.Within h) : f.Within h := by
  induction hgh with
  | self => exact hfg
  | conj hmem _ ih => exact .conj hmem ih
  | disj hmem _ ih => exact .disj hmem ih
  | neg _ ih => exact .neg ih
  | premise _ ih => exact .premise ih
  | conclusion _ ih => exact .conclusion ih

def Effect.atom : Effect → Atom Term
  | add a => a
  | delete a => a

/-- The parts of an action or a method that refer to something by name. The problem has no parameters, and otherwise
has the same parts. -/
structure Operator where
  name : String
  parameters : List Typed := []
  atoms : List (Atom Term) := []
  formulas : List Formula
  tasks : List (Atom Term) := []
  network : Network := {}

def Action.operator (a : Action) : Operator where
  name := a.name
  parameters := a.parameters
  atoms := a.effects.map (·.atom)
  formulas := a.preconditions

def Method.operator (m : Method) : Operator where
  name := m.name
  parameters := m.parameters
  formulas := m.preconditions
  tasks := [m.task]
  network := m.network

def Problem.operator (p : Problem) : Operator where
  name := p.name
  atoms := p.init.map fun a => ⟨a.name, a.values.map .name⟩
  formulas := p.goal
  network := p.htn

def operators (d : Domain) (p : Problem) : List Operator :=
  d.actions.map (·.operator) ++ d.methods.map (·.operator) ++ [p.operator]

namespace Operator

variable (o : Operator)

def HasAtom (a : Atom Term) : Prop := a ∈ o.atoms ∨ ∃ f ∈ o.formulas, (Formula.atom a).Within f

def HasTask (a : Atom Term) : Prop := a ∈ o.tasks ∨ ∃ t ∈ o.network.subtasks, t.task = a

def HasTerm (t : Term) : Prop :=
  (∃ a, (o.HasAtom a ∨ o.HasTask a) ∧ t ∈ a.values) ∨
    ∃ f ∈ o.formulas, ∃ x y, (Formula.equal x y).Within f ∧ (t = x ∨ t = y)

def HasLabel (label : String) : Prop := ∃ t ∈ o.network.subtasks, t.label = some label

end Operator

/-! ### What is declared -/

/-- A name with the types that define it. A task may be primitive. -/
structure Declaration where
  name : String
  types : List TypeRef
  primitive : Bool := false

def Typed.declaration (t : Typed) : Declaration where
  name := t.value
  types := [t.type]

def Predicate.declaration (q : Predicate) : Declaration where
  name := q.name
  types := q.parameters.map (·.type)

def Task.declaration (t : Task) : Declaration where
  name := t.name
  types := t.parameters.map (·.type)

def Action.declaration (a : Action) : Declaration where
  name := a.name
  types := a.parameters.map (·.type)
  primitive := true

/-- An action declares a task. -/
def declarations (d : Domain) (p : Problem) : Kind → List Declaration
  | .constant => (d.constants ++ p.objects).map (·.declaration)
  | .predicate => d.predicates.map (·.declaration)
  | .task => d.tasks.map (·.declaration) ++ d.actions.map (·.declaration)
  | .parameter => []

/-- There is a declaration of the name, and each has as many types as there are values. -/
def Declares (xs : List Declaration) (a : Atom Term) : Prop :=
  (∃ x ∈ xs, x.name = a.name) ∧ ∀ x ∈ xs, x.name = a.name → x.types.length = a.values.length

def Domain.DeclaresType (d : Domain) (name : String) : Prop :=
  name = "object" ∨ ∃ t ∈ d.types, name = t.value ∨ name ∈ t.type.names

/-- The types that declarations refer to, in their order. -/
def references (d : Domain) (p : Problem) : List TypeRef :=
  (declarations d p .constant ++ declarations d p .predicate ++ declarations d p .task).flatMap (·.types)

/-- A declaration or a parameter has the type. -/
def Mentions (d : Domain) (p : Problem) (ref : TypeRef) : Prop :=
  ref ∈ references d p ∨ ∃ o ∈ operators d p, ∃ t ∈ o.parameters, t.type = ref

theorem mentions_of_mem_declarations {d : Domain} {p : Problem} {kind : Kind} {x : Declaration} {ref : TypeRef}
    (hx : x ∈ declarations d p kind) (href : ref ∈ x.types) : Mentions d p ref := by
  refine Or.inl (List.mem_flatMap.mpr ⟨x, ?_, href⟩)
  cases kind with
  | constant => exact List.mem_append_left _ (List.mem_append_left _ hx)
  | predicate => exact List.mem_append_left _ (List.mem_append_right _ hx)
  | task => exact List.mem_append_right _ hx
  | parameter => exact absurd hx List.not_mem_nil

end Definition

open Definition

namespace Symbols

/-- The types after the references were resolved. One that is to unknown types does nothing. -/
def resolveAll (s : Symbols) (refs : List TypeRef) : Symbols := refs.foldl (fun s ref => s.after (s.resolve ref)) s

def typeOf (s : Symbols) (ref : TypeRef) : Except GroundingError Nat := (s.resolve ref).map (·.1)

def declareAllTypes (s : Symbols) (names : List String) : Symbols :=
  names.foldl (fun s name => (s.declareType name).2) s

end Symbols

namespace Definition

/-- All types: first those that the domain names, those on the left of a declaration before those on its right, then
the unions that declarations refer to. -/
def typeTable (d : Domain) (p : Problem) : Symbols :=
  let named := Symbols.declareAllTypes {} (d.types.map (·.value))
  let linked := named.declareAllTypes (d.types.flatMap fun t => t.value :: t.type.names)
  linked.resolveAll (references d p)

/-- The types of both can be resolved, and are not the same. -/
def Declaration.Differs (s : Symbols) (x y : Declaration) : Prop :=
  x.primitive ≠ y.primitive ∨
    ∃ ts us, x.types.mapM s.typeOf = .ok ts ∧ y.types.mapM s.typeOf = .ok us ∧ ts ≠ us

/-! ### What may be wrong -/

/-- The error tells of something that is wrong with the domain and the problem. -/
inductive Defect (d : Domain) (p : Problem) : GroundingError → Prop
  | unknownType {ref : TypeRef} {name : String} (href : Mentions d p ref) (hname : name ∈ ref.names)
    (hnone : ¬d.DeclaresType name) : Defect d p (.unknownType name)
  | conflict {kind : Kind} {x y : Declaration} (hx : x ∈ declarations d p kind) (hy : y ∈ declarations d p kind)
    (hname : x.name = y.name) (hdiffers : x.Differs (typeTable d p) y) : Defect d p (.conflict kind y.name)
  | repeatedParameter {o : Operator} {name : String} (ho : o ∈ operators d p)
    (hname : List.Duplicate name (o.parameters.map (·.value))) : Defect d p (.conflict .parameter name)
  | unknownPredicate {o : Operator} {a : Atom Term} (ho : o ∈ operators d p) (ha : o.HasAtom a)
    (hnone : ∀ x ∈ declarations d p .predicate, x.name ≠ a.name) : Defect d p (.unknownPredicate a.name)
  | predicateArity {o : Operator} {a : Atom Term} {x : Declaration} (ho : o ∈ operators d p) (ha : o.HasAtom a)
    (hx : x ∈ declarations d p .predicate) (hname : x.name = a.name) (hne : x.types.length ≠ a.values.length) :
    Defect d p (.arityMismatch a.name x.types.length a.values.length)
  | unknownTask {o : Operator} {a : Atom Term} (ho : o ∈ operators d p) (ha : o.HasTask a)
    (hnone : ∀ x ∈ declarations d p .task, x.name ≠ a.name) : Defect d p (.unknownTask a.name)
  | taskArity {o : Operator} {a : Atom Term} {x : Declaration} (ho : o ∈ operators d p) (ha : o.HasTask a)
    (hx : x ∈ declarations d p .task) (hname : x.name = a.name) (hne : x.types.length ≠ a.values.length) :
    Defect d p (.arityMismatch a.name x.types.length a.values.length)
  | unknownConstant {o : Operator} {name : String} (ho : o ∈ operators d p) (hname : o.HasTerm (.name name))
    (hnone : ∀ x ∈ declarations d p .constant, x.name ≠ name) : Defect d p (.unknownConstant name)
  | unknownVariable {o : Operator} {name : String} (ho : o ∈ operators d p) (hname : o.HasTerm (.var name))
    (hnone : ∀ t ∈ o.parameters, t.value ≠ name) : Defect d p (.unknownVariable name o.name)
  | orderedToItself {o : Operator} {q : String × String} (ho : o ∈ operators d p) (hq : q ∈ o.network.ordering)
    (hsame : q.1 = q.2) : Defect d p (.invalidOrdering o.name q.1)
  | unknownLabel {o : Operator} {q : String × String} {label : String} (ho : o ∈ operators d p)
    (hq : q ∈ o.network.ordering) (hlabel : label = q.1 ∨ label = q.2) (hnone : ¬o.HasLabel label) :
    Defect d p (.invalidOrdering o.name label)

def Operator.Knows (d : Domain) (p : Problem) (o : Operator) : Term → Prop
  | .name n => ∃ x ∈ declarations d p .constant, x.name = n
  | .var v => ∃ t ∈ o.parameters, t.value = v

structure Operator.WellFormed (d : Domain) (p : Problem) (o : Operator) : Prop where
  parameters : (o.parameters.map (·.value)).Nodup
  atoms : ∀ a, o.HasAtom a → Declares (declarations d p .predicate) a
  tasks : ∀ a, o.HasTask a → Declares (declarations d p .task) a
  terms : ∀ t, o.HasTerm t → o.Knows d p t
  ordering : ∀ q ∈ o.network.ordering, q.1 ≠ q.2 ∧ o.HasLabel q.1 ∧ o.HasLabel q.2

structure WellFormed (d : Domain) (p : Problem) : Prop where
  declarations : ∀ kind, ∀ x ∈ declarations d p kind, ∀ y ∈ declarations d p kind, x.name = y.name →
    ¬x.Differs (typeTable d p) y
  operators : ∀ o ∈ operators d p, o.WellFormed d p

theorem WellFormed.unknownType_of_defect {d : Domain} {p : Problem} {e : GroundingError} (h : WellFormed d p)
    (he : Defect d p e) : ∃ name, e = .unknownType name := by
  cases he with
  | unknownType => exact ⟨_, rfl⟩
  | conflict hx hy hname hdiffers => exact absurd hdiffers (h.declarations _ _ hx _ hy hname)
  | repeatedParameter ho hname =>
      exact absurd hname (List.nodup_iff_forall_not_duplicate.mp (h.operators _ ho).parameters _)
  | unknownPredicate ho ha hnone =>
      obtain ⟨x, hx, hname⟩ := ((h.operators _ ho).atoms _ ha).1
      exact absurd hname (hnone x hx)
  | predicateArity ho ha hx hname hne => exact absurd (((h.operators _ ho).atoms _ ha).2 _ hx hname) hne
  | unknownTask ho ha hnone =>
      obtain ⟨x, hx, hname⟩ := ((h.operators _ ho).tasks _ ha).1
      exact absurd hname (hnone x hx)
  | taskArity ho ha hx hname hne => exact absurd (((h.operators _ ho).tasks _ ha).2 _ hx hname) hne
  | unknownConstant ho hname hnone =>
      obtain ⟨x, hx, hname⟩ := (h.operators _ ho).terms _ hname
      exact absurd hname (hnone x hx)
  | unknownVariable ho hname hnone =>
      obtain ⟨t, ht, hname⟩ := (h.operators _ ho).terms _ hname
      exact absurd hname (hnone t ht)
  | orderedToItself ho hq hsame => exact absurd hsame ((h.operators _ ho).ordering _ hq).1
  | unknownLabel ho hq hlabel hnone =>
      obtain ⟨-, hfirst, hsecond⟩ := (h.operators _ ho).ordering _ hq
      rcases hlabel with rfl | rfl
      · exact absurd hfirst hnone
      · exact absurd hsecond hnone

end Definition

end HtnPlanner
