import HtnPlanner.Definition.Basic
import Mathlib.Data.Set.Basic

/-!
When a condition holds of facts that are given by name, and which facts there are after effects. Variables stand for
constants that are given by name as well.
-/

namespace HtnPlanner.Definition

variable (σ : String → String)

/-- The constant that the term names, or that its variable stands for. -/
def Term.value : Term → String
  | name n => n
  | var v => σ v

def Atom.ground (a : Atom Term) : Atom String := ⟨a.name, a.values.map (·.value σ)⟩

namespace Formula

mutual

/-- The formula is true if exactly the facts of `F` are. -/
def Holds (F : Set (Atom String)) : Formula → Prop
  | atom a => a.ground σ ∈ F
  | conj fs => HoldsAll F fs
  | disj fs => HoldsAny F fs
  | neg f => ¬Holds F f
  | imply f g => ¬Holds F f ∨ Holds F g
  | equal a b => a.value σ = b.value σ

def HoldsAll (F : Set (Atom String)) : List Formula → Prop
  | [] => True
  | f :: fs => Holds F f ∧ HoldsAll F fs

def HoldsAny (F : Set (Atom String)) : List Formula → Prop
  | [] => False
  | f :: fs => Holds F f ∨ HoldsAny F fs

end

variable {σ} {F : Set (Atom String)}

@[simp] theorem holdsAll_iff {fs : List Formula} : HoldsAll σ F fs ↔ ∀ f ∈ fs, f.Holds σ F := by
  induction fs with
  | nil => simp [HoldsAll]
  | cons f fs ih => simp [HoldsAll, ih]

@[simp] theorem holdsAny_iff {fs : List Formula} : HoldsAny σ F fs ↔ ∃ f ∈ fs, f.Holds σ F := by
  induction fs with
  | nil => simp [HoldsAny]
  | cons f fs ih => simp [HoldsAny, ih]

theorem holds_conj {fs : List Formula} : (conj fs).Holds σ F ↔ ∀ f ∈ fs, f.Holds σ F := by rw [Holds, holdsAll_iff]

theorem holds_disj {fs : List Formula} : (disj fs).Holds σ F ↔ ∃ f ∈ fs, f.Holds σ F := by rw [Holds, holdsAny_iff]

end Formula

/-- The facts that are left when all that is deleted is gone, and those that are added then. -/
def Effect.result (es : List Effect) (F : Set (Atom String)) : Set (Atom String) :=
  (F \ {a | ∃ x, Effect.delete x ∈ es ∧ x.ground σ = a}) ∪ {a | ∃ x, Effect.add x ∈ es ∧ x.ground σ = a}

end HtnPlanner.Definition
