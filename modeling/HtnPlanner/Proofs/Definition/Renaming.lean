import HtnPlanner.Definition.Basic
import Mathlib.Data.List.Forall2
import Mathlib.Logic.Function.Basic

/-!
Other names for the variables of an operator and for the labels of a network. Every operator and every network may have
names of its own.
-/

namespace HtnPlanner.Definition

variable (ρ μ : String → String)

def Term.rename : Term → Term
  | name n => name n
  | var v => var (ρ v)

def Atom.rename (a : Atom Term) : Atom Term := { a with values := a.values.map (·.rename ρ) }

namespace Formula

mutual

def rename : Formula → Formula
  | atom a => atom (a.rename ρ)
  | conj fs => conj (renameAll fs)
  | disj fs => disj (renameAll fs)
  | neg f => neg (rename f)
  | imply f g => imply (rename f) (rename g)
  | equal a b => equal (a.rename ρ) (b.rename ρ)

def renameAll : List Formula → List Formula
  | [] => []
  | f :: fs => rename f :: renameAll fs

end

@[simp] theorem renameAll_eq_map (fs : List Formula) : renameAll ρ fs = fs.map (rename ρ) := by
  induction fs with
  | nil => rfl
  | cons f fs ih => simp [renameAll, ih]

end Formula

def Effect.rename : Effect → Effect
  | add a => add (a.rename ρ)
  | delete a => delete (a.rename ρ)

def Typed.rename (t : Typed) : Typed := { t with value := ρ t.value }

/-- Tasks mention the variables of the operator that the network belongs to. -/
def Network.rename (n : Network) : Network where
  subtasks := n.subtasks.map fun t => ⟨t.label.map μ, t.task.rename ρ⟩
  ordering := n.ordering.map (Prod.map μ μ)

def Action.rename (a : Action) : Action where
  name := a.name
  parameters := a.parameters.map (·.rename ρ)
  preconditions := a.preconditions.map (·.rename ρ)
  effects := a.effects.map (·.rename ρ)

def Method.rename (m : Method) : Method where
  name := m.name
  parameters := m.parameters.map (·.rename ρ)
  task := m.task.rename ρ
  preconditions := m.preconditions.map (·.rename ρ)
  network := m.network.rename ρ μ

/-- Different variables of an action get different names, and nothing else changes. -/
def Action.Renamed (a a' : Action) : Prop := ∃ ρ : String → String, ρ.Injective ∧ a' = a.rename ρ

def Method.Renamed (m m' : Method) : Prop :=
  ∃ ρ μ : String → String, ρ.Injective ∧ μ.Injective ∧ m' = m.rename ρ μ

/-- Each action and each method has its own new names. -/
structure Domain.Renamed (d d' : Domain) : Prop where
  rest : d' = { d with actions := d'.actions, methods := d'.methods }
  actions : List.Forall₂ Action.Renamed d.actions d'.actions
  methods : List.Forall₂ Method.Renamed d.methods d'.methods

/-- A problem has no variables, only the labels of its network. -/
def Problem.Renamed (p p' : Problem) : Prop :=
  ∃ μ : String → String, μ.Injective ∧ p' = { p with htn := p.htn.rename id μ }

/-- Every operator marks its variables and labels by its name. -/
def Domain.apart (d : Domain) : Domain :=
  { d with
    actions := d.actions.map fun a => a.rename (a.name ++ " " ++ ·)
    methods := d.methods.map fun m => m.rename (m.name ++ " " ++ ·) (m.name ++ " " ++ ·) }

theorem Domain.renamed_apart (d : Domain) : d.Renamed d.apart where
  rest := rfl
  actions := by
    refine List.forall₂_map_right_iff.mpr (List.forall₂_same.mpr fun a _ => ?_)
    exact ⟨_, fun v w h => (String.append_right_inj _).mp h, rfl⟩
  methods := by
    refine List.forall₂_map_right_iff.mpr (List.forall₂_same.mpr fun m _ => ?_)
    exact ⟨_, _, fun v w h => (String.append_right_inj _).mp h, fun v w h => (String.append_right_inj _).mp h, rfl⟩

end HtnPlanner.Definition
