import HtnPlanner.Fact

namespace HtnPlanner

inductive Arg
  | const (id : Nat)
  | slot (i : Nat)
  deriving DecidableEq, Repr, Inhabited

namespace Arg

def const? : Arg → Option Nat
  | const c => some c
  | slot _ => none

def slot? : Arg → Option Nat
  | const _ => none
  | slot i => some i

/-- A slot without a value stays as it is. -/
def subst (binding : List Nat) : Arg → Arg
  | const c => const c
  | slot i => match binding[i]? with
    | some c => const c
    | none => slot i

/-- The constant that the argument stands for under a partial binding. -/
def resolve (binding : List (Option Nat)) : Arg → Option Nat
  | const c => some c
  | slot i => binding[i]?.join

end Arg

structure Atom where
  predicate : Nat
  args : List Arg
  deriving DecidableEq, Repr, Inhabited

structure TaskRef where
  symbol : Nat
  args : List Arg
  deriving DecidableEq, Repr, Inhabited

namespace Atom

def subst (binding : List Nat) (a : Atom) : Atom := ⟨a.predicate, a.args.map (·.subst binding)⟩

def fact? (a : Atom) : Option Fact := (a.args.mapM Arg.const?).map (⟨a.predicate, ·⟩)

def ofFact (f : Fact) : Atom := ⟨f.predicate, f.args.map .const⟩

end Atom

namespace TaskRef

def subst (binding : List Nat) (t : TaskRef) : TaskRef := ⟨t.symbol, t.args.map (·.subst binding)⟩

def ground? (t : TaskRef) : Option GroundTask := (t.args.mapM Arg.const?).map (⟨t.symbol, ·⟩)

def slots (t : TaskRef) : List Nat := t.args.filterMap Arg.slot?

end TaskRef

/-- Conditions and effects over symbol ids and parameter slots. -/
inductive Expr
  | top
  | bottom
  | atom (a : Atom)
  | equal (a b : Arg)
  | neg (e : Expr)
  | conj (es : List Expr)
  | disj (es : List Expr)
  | task (t : TaskRef)
  deriving Repr, Inhabited

namespace Expr

mutual

def beq : Expr → Expr → Bool
  | top, top => true
  | bottom, bottom => true
  | atom a, atom b => a == b
  | equal a b, equal c d => a == c && b == d
  | neg e, neg f => beq e f
  | conj es, conj fs => beqAll es fs
  | disj es, disj fs => beqAll es fs
  | task t, task u => t == u
  | _, _ => false

def beqAll : List Expr → List Expr → Bool
  | [], [] => true
  | e :: es, f :: fs => beq e f && beqAll es fs
  | _, _ => false

end

mutual

theorem beq_iff_eq : (e f : Expr) → (beq e f = true ↔ e = f)
  | .top, f => by cases f <;> simp [beq]
  | .bottom, f => by cases f <;> simp [beq]
  | .atom a, f => by cases f <;> simp [beq]
  | .equal a b, f => by cases f <;> simp [beq]
  | .neg e, f => by cases f <;> simp [beq, beq_iff_eq e]
  | .conj es, f => by cases f <;> simp [beq, beqAll_iff_eq es]
  | .disj es, f => by cases f <;> simp [beq, beqAll_iff_eq es]
  | .task t, f => by cases f <;> simp [beq]

theorem beqAll_iff_eq : (es fs : List Expr) → (beqAll es fs = true ↔ es = fs)
  | [], fs => by cases fs <;> simp [beqAll]
  | e :: es, fs => by cases fs <;> simp [beqAll, beq_iff_eq e, beqAll_iff_eq es]

end

instance : DecidableEq Expr := fun e f => decidable_of_iff _ (beq_iff_eq e f)

/-- To show something of every expression, show it of a conjunction or disjunction whose members
have it, and of the rest. -/
@[elab_as_elim]
theorem induct {P : Expr → Prop} (top : P .top) (bottom : P .bottom) (atom : ∀ a, P (.atom a))
    (equal : ∀ a b, P (.equal a b)) (neg : ∀ e, P e → P (.neg e))
    (conj : ∀ es, (∀ e ∈ es, P e) → P (.conj es)) (disj : ∀ es, (∀ e ∈ es, P e) → P (.disj es))
    (task : ∀ t, P (.task t)) (e : Expr) : P e :=
  Expr.rec top bottom atom equal neg conj disj task (fun _ h => absurd h List.not_mem_nil)
    (fun _ _ he hes => List.forall_mem_cons.2 ⟨he, hes⟩) e

mutual

def subst (binding : List Nat) : Expr → Expr
  | top => top
  | bottom => bottom
  | atom a => atom (a.subst binding)
  | equal a b => equal (a.subst binding) (b.subst binding)
  | neg e => neg (subst binding e)
  | conj es => conj (substAll binding es)
  | disj es => disj (substAll binding es)
  | task t => task (t.subst binding)

def substAll (binding : List Nat) : List Expr → List Expr
  | [] => []
  | e :: es => subst binding e :: substAll binding es

end

@[simp] theorem substAll_eq_map (binding : List Nat) (es : List Expr) :
    substAll binding es = es.map (subst binding) := by
  induction es with
  | nil => rfl
  | cons e es ih => simp [substAll, ih]

mutual

/-- The atoms from left to right, each with whether it stands under an even number of negations. -/
def signedAtoms (positive : Bool) : Expr → List (Bool × Atom)
  | atom a => [(positive, a)]
  | neg e => signedAtoms (!positive) e
  | conj es => signedAtomsAll positive es
  | disj es => signedAtomsAll positive es
  | _ => []

def signedAtomsAll (positive : Bool) : List Expr → List (Bool × Atom)
  | [] => []
  | e :: es => signedAtoms positive e ++ signedAtomsAll positive es

end

@[simp] theorem signedAtomsAll_eq_flatMap (positive : Bool) (es : List Expr) :
    signedAtomsAll positive es = es.flatMap (signedAtoms positive) := by
  induction es with
  | nil => rfl
  | cons e es ih => simp [signedAtomsAll, ih]

def facts (e : Expr) : List Fact := (e.signedAtoms true).filterMap (·.2.fact?)

mutual

def slots : Expr → List Nat
  | atom a => a.args.filterMap Arg.slot?
  | equal a b => [a, b].filterMap Arg.slot?
  | neg e => slots e
  | conj es => slotsAll es
  | disj es => slotsAll es
  | task t => t.slots
  | _ => []

def slotsAll : List Expr → List Nat
  | [] => []
  | e :: es => slots e ++ slotsAll es

end

@[simp] theorem slotsAll_eq_flatMap (es : List Expr) : slotsAll es = es.flatMap slots := by
  induction es with
  | nil => rfl
  | cons e es ih => simp [slotsAll, ih]

/-- The slots mentioned, ascending and once each. -/
def slotSet (e : Expr) : List Nat := e.slots.eraseDups.mergeSort

def args : Expr → List Arg
  | atom a => a.args
  | task t => t.args
  | _ => []

def fact? : Expr → Option Fact
  | atom a => a.fact?
  | _ => none

def groundTask? : Expr → Option GroundTask
  | task t => t.ground?
  | _ => none

def conjuncts : Expr → List Expr
  | top => []
  | conj es => es
  | e => [e]

def literal? : Expr → Option Literal
  | atom a => a.fact?.map (⟨true, ·⟩)
  | neg e => e.fact?.map (⟨false, ·⟩)
  | _ => none

/-- The literals of a conjunction of atoms without slots and their negations; nothing else has any. -/
def literals? (e : Expr) : Option (List Literal) := e.conjuncts.mapM literal?

/-- `literals?`, and no literals where there are none to read. -/
def literals (e : Expr) : List Literal := e.literals?.getD []

def ofLiteral (l : Literal) : Expr :=
  if l.positive then atom (.ofFact l.fact) else neg (atom (.ofFact l.fact))

def subst? (binding : List Nat) (e : Expr) : Option Expr :=
  if e.slots.all (· < binding.length) then some (e.subst binding) else none

end Expr

end HtnPlanner
