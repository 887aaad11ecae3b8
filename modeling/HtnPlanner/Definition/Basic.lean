/-!
A planning domain and a problem as they are written down: everything is referred to by name.
-/

namespace HtnPlanner.Definition

inductive TypeRef
  | exactly (name : String)
  | eitherOf (names : List String)
  deriving DecidableEq, Repr

namespace TypeRef

def object : TypeRef := exactly "object"

def names : TypeRef → List String
  | exactly n => [n]
  | eitherOf ns => ns

/-- The name of a type that is not a union, or a union of one. -/
def single? : TypeRef → Option String
  | exactly n => some n
  | eitherOf [n] => some n
  | eitherOf _ => none

instance : Inhabited TypeRef := ⟨object⟩

end TypeRef

structure Typed where
  value : String
  type : TypeRef := .object
  deriving DecidableEq, Repr, Inhabited

inductive Term
  | name (n : String)
  | var (v : String)
  deriving DecidableEq, Repr, Inhabited

structure Atom (α : Type) where
  name : String
  values : List α := []
  deriving DecidableEq, Repr, Inhabited

inductive Formula
  | atom (a : Atom Term)
  | conj (fs : List Formula)
  | disj (fs : List Formula)
  | neg (f : Formula)
  | imply (premise conclusion : Formula)
  | equal (a b : Term)
  deriving Repr, Inhabited

namespace Formula

mutual

def beq : Formula → Formula → Bool
  | atom a, atom b => a == b
  | conj fs, conj gs => beqAll fs gs
  | disj fs, disj gs => beqAll fs gs
  | neg f, neg g => beq f g
  | imply a b, imply c d => beq a c && beq b d
  | equal a b, equal c d => a == c && b == d
  | _, _ => false

def beqAll : List Formula → List Formula → Bool
  | [], [] => true
  | f :: fs, g :: gs => beq f g && beqAll fs gs
  | _, _ => false

end

mutual

theorem beq_iff_eq : (f g : Formula) → (beq f g = true ↔ f = g)
  | .atom a, g => by cases g <;> simp [beq]
  | .conj fs, g => by cases g <;> simp [beq, beqAll_iff_eq fs]
  | .disj fs, g => by cases g <;> simp [beq, beqAll_iff_eq fs]
  | .neg f, g => by cases g <;> simp [beq, beq_iff_eq f]
  | .imply a b, g => by cases g <;> simp [beq, beq_iff_eq a, beq_iff_eq b]
  | .equal a b, g => by cases g <;> simp [beq]

theorem beqAll_iff_eq : (fs gs : List Formula) → (beqAll fs gs = true ↔ fs = gs)
  | [], gs => by cases gs <;> simp [beqAll]
  | f :: fs, gs => by cases gs <;> simp [beqAll, beq_iff_eq f, beqAll_iff_eq fs]

end

instance : DecidableEq Formula := fun f g => decidable_of_iff _ (beq_iff_eq f g)

/-- To show something of every formula, show it of a conjunction or disjunction whose members have
it, and of the rest. -/
@[elab_as_elim]
theorem induct {P : Formula → Prop} (atom : ∀ a, P (.atom a))
    (conj : ∀ fs, (∀ f ∈ fs, P f) → P (.conj fs)) (disj : ∀ fs, (∀ f ∈ fs, P f) → P (.disj fs))
    (neg : ∀ f, P f → P (.neg f)) (imply : ∀ f g, P f → P g → P (.imply f g))
    (equal : ∀ a b, P (.equal a b)) (f : Formula) : P f :=
  Formula.rec atom conj disj neg imply equal (fun _ h => absurd h List.not_mem_nil)
    (fun _ _ hf hfs => List.forall_mem_cons.2 ⟨hf, hfs⟩) f

end Formula

inductive Effect
  | add (a : Atom Term)
  | delete (a : Atom Term)
  deriving DecidableEq, Repr, Inhabited

structure Predicate where
  name : String
  parameters : List Typed := []
  deriving DecidableEq, Repr, Inhabited

structure Task where
  name : String
  parameters : List Typed := []
  deriving DecidableEq, Repr, Inhabited

/-- An action, which also declares the primitive task of its name. -/
structure Action where
  name : String
  parameters : List Typed := []
  preconditions : List Formula := []
  effects : List Effect := []
  deriving DecidableEq, Repr, Inhabited

structure Subtask where
  label : Option String := none
  task : Atom Term
  deriving DecidableEq, Repr, Inhabited

/-- Subtasks, and pairs of labels of which the first precedes the second. -/
structure Network where
  subtasks : List Subtask := []
  ordering : List (String × String) := []
  deriving DecidableEq, Repr, Inhabited

namespace Network

/-- A subtask without a label gets its position as one. -/
def labelled (position : Nat) (s : Subtask) : Subtask :=
  { s with label := some (s.label.getD ("#" ++ toString position)) }

def ordered (subtasks : List Subtask) : Network :=
  let subtasks := subtasks.mapIdx labelled
  let labels := subtasks.filterMap (·.label)
  ⟨subtasks, labels.zip labels.tail⟩

end Network

structure Method where
  name : String
  parameters : List Typed := []
  task : Atom Term
  preconditions : List Formula := []
  network : Network := {}
  deriving DecidableEq, Repr, Inhabited

structure Domain where
  name : String
  types : List Typed := [⟨"object", .object⟩]
  constants : List Typed := []
  predicates : List Predicate := []
  tasks : List Task := []
  actions : List Action := []
  methods : List Method := []
  deriving DecidableEq, Repr, Inhabited

structure Problem where
  name : String
  domain : String
  objects : List Typed := []
  init : List (Atom String) := []
  htn : Network := {}
  goal : List Formula := []
  deriving DecidableEq, Repr, Inhabited

end HtnPlanner.Definition
