import HtnPlanner.Lifted.Basic
import HtnPlanner.Proofs.Expr.Shape
import HtnPlanner.Proofs.Symbols.Domains

/-!
What the lifted problem of a domain and a problem may be relied on for: constants and slots that there
are, as many arguments as a symbol takes, and positions within the network.
-/

namespace HtnPlanner

variable {s s' : Symbols} {n : Nat}

/-- A constant that there is, or one of the first `n` slots. -/
def Arg.Fits (s : Symbols) (n : Nat) : Arg → Prop
  | const c => c < s.constants.size
  | slot i => i < n

structure Atom.Fits (s : Symbols) (n : Nat) (a : Atom) : Prop where
  arity : ∃ signature, s.predicates.definition? a.predicate = some signature ∧ signature.length = a.args.length
  args : ∀ x ∈ a.args, x.Fits s n

structure TaskRef.Fits (s : Symbols) (n : Nat) (t : TaskRef) : Prop where
  arity : ∃ signature, s.tasks.definition? t.symbol = some signature ∧ signature.parameters.length = t.args.length
  args : ∀ x ∈ t.args, x.Fits s n

def Fact.Fits (s : Symbols) (f : Fact) : Prop :=
  ∃ signature, s.predicates.definition? f.predicate = some signature ∧ signature.length = f.args.length

namespace Expr

def Fits (s : Symbols) (n : Nat) : Expr → Prop := Over (Atom.Fits s n) fun x y => x.Fits s n ∧ y.Fits s n

/-- A conjunction of atoms and negated atoms. -/
def IsEffect (s : Symbols) (n : Nat) (e : Expr) : Prop :=
  ∃ es, e = conj es ∧ ∀ l ∈ es, ∃ a : Atom, a.Fits s n ∧ (l = atom a ∨ l = neg (atom a))

end Expr

namespace Schema

structure Network.Fits (s : Symbols) (n : Nat) (network : Network) : Prop where
  tasks : ∀ t ∈ network.tasks, t.Fits s n
  order : ∀ q ∈ network.order, q.1 < network.tasks.length ∧ q.2 < network.tasks.length

structure Action.Fits (s : Symbols) (a : Action) : Prop where
  types : ∀ t ∈ a.parameters, t < s.types.length
  precondition : a.precondition.Fits s a.parameters.length
  effect : a.effect.IsEffect s a.parameters.length
  primitive : s.isPrimitive a.task = true

structure Method.Fits (s : Symbols) (m : Method) : Prop where
  types : ∀ t ∈ m.parameters, t < s.types.length
  task : m.task.Fits s m.parameters.length
  precondition : m.precondition.Fits s m.parameters.length
  network : m.network.Fits s m.parameters.length

end Schema

structure LiftedProblem.WellFormed (p : LiftedProblem) : Prop where
  settled : p.symbols.Settled
  init : ∀ f ∈ p.init, f.Fits p.symbols
  actions : ∀ a ∈ p.actions, a.Fits p.symbols
  methods : ∀ m ∈ p.methods, m.Fits p.symbols
  goal : p.goal.Fits p.symbols 0
  network : p.network.Fits p.symbols 0

/-! ### Types may be added -/

theorem Arg.Fits.extends {x : Arg} (h : x.Fits s n) (hs : s.Extends s') : x.Fits s' n := by
  cases x with
  | const c => rwa [Fits, hs.constants]
  | slot i => exact h

theorem Atom.Fits.extends {a : Atom} (h : a.Fits s n) (hs : s.Extends s') : a.Fits s' n :=
  ⟨by rw [hs.predicates]; exact h.arity, fun x hx => (h.args x hx).extends hs⟩

theorem TaskRef.Fits.extends {t : TaskRef} (h : t.Fits s n) (hs : s.Extends s') : t.Fits s' n :=
  ⟨by rw [hs.tasks]; exact h.arity, fun x hx => (h.args x hx).extends hs⟩

theorem Expr.Fits.extends {e : Expr} (h : e.Fits s n) (hs : s.Extends s') : e.Fits s' n :=
  h.mono (fun _ ha => ha.extends hs) fun _ _ hxy => ⟨hxy.1.extends hs, hxy.2.extends hs⟩

theorem Expr.IsEffect.extends {e : Expr} (h : e.IsEffect s n) (hs : s.Extends s') : e.IsEffect s' n := by
  obtain ⟨es, rfl, h⟩ := h
  refine ⟨es, rfl, fun l hl => ?_⟩
  obtain ⟨a, ha, hla⟩ := h l hl
  exact ⟨a, ha.extends hs, hla⟩

theorem Schema.Network.Fits.extends {network : Schema.Network} (h : network.Fits s n) (hs : s.Extends s') :
    network.Fits s' n :=
  ⟨fun t ht => (h.tasks t ht).extends hs, h.order⟩

theorem Schema.Action.Fits.extends {a : Schema.Action} (h : a.Fits s) (hs : s.Extends s') : a.Fits s' where
  types t ht := Nat.lt_of_lt_of_le (h.types t ht) hs.types
  precondition := h.precondition.extends hs
  effect := h.effect.extends hs
  primitive := by rw [Symbols.isPrimitive, hs.tasks]; exact h.primitive

theorem Schema.Method.Fits.extends {m : Schema.Method} (h : m.Fits s) (hs : s.Extends s') : m.Fits s' where
  types t ht := Nat.lt_of_lt_of_le (h.types t ht) hs.types
  task := h.task.extends hs
  precondition := h.precondition.extends hs
  network := h.network.extends hs

end HtnPlanner
