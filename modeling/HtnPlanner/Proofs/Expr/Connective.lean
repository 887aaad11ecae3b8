import HtnPlanner.Expr.Simplify
import Mathlib.Tactic.Common

/-!
Conjunctions and disjunctions are simplified in the same way, up to which truth value is left out and which one absorbs
the rest. What is shown of a connective here holds of both.
-/

namespace HtnPlanner.Expr

mutual

/-- The expression and everything that it is built from. -/
def nodes : Expr → List Expr
  | neg e => neg e :: nodes e
  | conj es => conj es :: nodesAll es
  | disj es => disj es :: nodesAll es
  | e => [e]

def nodesAll : List Expr → List Expr
  | [] => []
  | e :: es => nodes e ++ nodesAll es

end

@[simp] theorem nodesAll_eq_flatMap (es : List Expr) : nodesAll es = es.flatMap nodes := by
  induction es with
  | nil => rfl
  | cons e es ih => simp [nodesAll, ih]

theorem mem_nodes_self (e : Expr) : e ∈ e.nodes := by
  cases e <;> exact List.mem_cons_self

def Everywhere (P : Expr → Prop) (e : Expr) : Prop := ∀ n ∈ e.nodes, P n

variable {P : Expr → Prop} {e : Expr} {es parts : List Expr}

theorem Everywhere.self (h : e.Everywhere P) : P e := h e e.mem_nodes_self

theorem everywhere_neg : (neg e).Everywhere P ↔ P (neg e) ∧ e.Everywhere P := List.forall_mem_cons

inductive Connective
  | all
  | any

namespace Connective

variable (c : Connective)

def of : Connective → List Expr → Expr
  | all => conj
  | any => disj

/-- The value of no members. -/
def unit : Connective → Expr
  | all => top
  | any => bottom

/-- The value of members among which it is. -/
def zero : Connective → Expr
  | all => bottom
  | any => top

def add : Connective → List Expr → Expr → List Expr
  | all => addConjunct
  | any => addDisjunct

def gather : List Expr → Expr
  | [] => c.unit
  | [e] => e
  | es => c.of es

def join (es : List Expr) : Expr := if c.zero ∈ es then c.zero else c.gather (es.foldl c.add [])

theorem simplify_of (es : List Expr) : (c.of es).simplify = c.join (es.map simplify) := by
  have hconj : conjOf = all.gather := by
    funext es
    match es with
    | [] | [_] | _ :: _ :: _ => rfl
  have hdisj : disjOf = any.gather := by
    funext es
    match es with
    | [] | [_] | _ :: _ :: _ => rfl
  cases c with
  | all => rw [of, simplify, conjoin, simplifyAll_eq_map, hconj]; rfl
  | any => rw [of, simplify, disjoin, simplifyAll_eq_map, hdisj]; rfl

theorem settle_of (value : Fact → Option Bool) (es : List Expr) :
    (c.of es).settle value = c.of (es.map (settle value)) := by
  cases c <;> simp [of, settle]

theorem nodes_of (es : List Expr) : (c.of es).nodes = c.of es :: es.flatMap nodes := by
  cases c <;> simp [of, nodes]

theorem everywhere_of : (c.of es).Everywhere P ↔ P (c.of es) ∧ ∀ e ∈ es, e.Everywhere P := by
  simp only [Everywhere, nodes_of, List.forall_mem_cons, List.forall_mem_flatMap]

@[simp] theorem of_ne_atom (es : List Expr) (a : Atom) : c.of es ≠ atom a := by
  cases c <;> exact nofun

@[simp] theorem unit_ne_atom (a : Atom) : c.unit ≠ atom a := by
  cases c <;> exact nofun

@[simp] theorem zero_ne_atom (a : Atom) : c.zero ≠ atom a := by
  cases c <;> exact nofun

theorem everywhere_unit : c.unit.Everywhere P ↔ P c.unit := by
  cases c <;> exact List.forall_mem_singleton

theorem everywhere_zero : c.zero.Everywhere P ↔ P c.zero := by
  cases c <;> exact List.forall_mem_singleton

/-! ### Members -/

/-- Neither left out nor taken over. -/
structure Single (e : Expr) : Prop where
  ne_unit : e ≠ c.unit
  ne_of : ∀ es, e ≠ c.of es

theorem member_cases (e : Expr) : e = c.unit ∨ (∃ es, e = c.of es) ∨ c.Single e := by
  by_cases hunit : e = c.unit
  · exact Or.inl hunit
  · by_cases hof : ∃ es, e = c.of es
    · exact Or.inr (Or.inl hof)
    · exact Or.inr (Or.inr ⟨hunit, not_exists.mp hof⟩)

@[simp] theorem add_unit (parts : List Expr) : c.add parts c.unit = parts := by
  cases c <;> rfl

@[simp] theorem add_of (parts es : List Expr) : c.add parts (c.of es) = parts ++ es := by
  cases c <;> rfl

variable {c}

theorem Single.add (h : c.Single e) (parts : List Expr) :
    c.add parts e = if e ∈ parts then parts else parts ++ [e] := by
  cases c with
  | all =>
      cases e with
      | top => exact absurd rfl h.ne_unit
      | conj es => exact absurd rfl (h.ne_of es)
      | _ => rfl
  | any =>
      cases e with
      | bottom => exact absurd rfl h.ne_unit
      | disj es => exact absurd rfl (h.ne_of es)
      | _ => rfl

/-- What holds of the members that stay and of the members of those taken over holds of all parts. -/
theorem forall_mem_foldl_add (hparts : ∀ p ∈ parts, P p) (hsingle : ∀ e ∈ es, c.Single e → P e)
    (hnested : ∀ fs, c.of fs ∈ es → ∀ f ∈ fs, P f) : ∀ p ∈ es.foldl c.add parts, P p := by
  induction es generalizing parts with
  | nil => exact hparts
  | cons e es ih =>
      refine ih ?_ (fun e he => hsingle e (List.mem_cons_of_mem _ he))
        fun fs hfs => hnested fs (List.mem_cons_of_mem _ hfs)
      rcases c.member_cases e with rfl | ⟨fs, rfl⟩ | he
      · rwa [add_unit]
      · rw [add_of]
        exact List.forall_mem_append.mpr ⟨hparts, hnested fs List.mem_cons_self⟩
      · rw [he.add]
        split
        · exact hparts
        · exact List.forall_mem_append.mpr
            ⟨hparts, List.forall_mem_singleton.mpr (hsingle e List.mem_cons_self he)⟩

theorem gather_of_two_le (h : 2 ≤ es.length) : c.gather es = c.of es := by
  rcases es with _ | ⟨e, _ | ⟨f, es⟩⟩
  · exact absurd h (Nat.not_succ_le_zero 1)
  · exact absurd h (Nat.not_succ_le_self 1)
  · rfl

theorem gather_induction {Q : Expr → Prop} (hparts : ∀ p ∈ parts, Q p) (unit : P c.unit) (one : ∀ p, Q p → P p)
    (of : 2 ≤ parts.length → (∀ p ∈ parts, Q p) → P (c.of parts)) : P (c.gather parts) := by
  match parts with
  | [] => exact unit
  | [p] => exact one p (hparts p List.mem_cons_self)
  | _ :: _ :: ps => exact of (Nat.le_add_left 2 ps.length) hparts

/-- To show something of the members put together, show it of the truth values, of one part and of two parts or more. -/
theorem join_induction {Q : Expr → Prop} (hsingle : ∀ e ∈ es, c.Single e → e ≠ c.zero → Q e)
    (hnested : ∀ fs, c.of fs ∈ es → ∀ f ∈ fs, Q f) (zero : P c.zero) (unit : P c.unit) (one : ∀ p, Q p → P p)
    (of : 2 ≤ (es.foldl c.add []).length → (∀ p ∈ es.foldl c.add [], Q p) → P (c.of (es.foldl c.add []))) :
    P (c.join es) := by
  rw [join]
  split
  · exact zero
  · next hzero =>
      have hparts : ∀ p ∈ es.foldl c.add [], Q p :=
        forall_mem_foldl_add (fun _ hp => absurd hp List.not_mem_nil)
          (fun e he h => hsingle e he h fun heq => hzero (heq ▸ he)) hnested
      exact gather_induction hparts unit one of

end Connective

theorem simplify_conj (es : List Expr) : (conj es).simplify = Connective.all.join (es.map simplify) :=
  Connective.all.simplify_of es

/-- To show something of every expression, show it of what a connective makes of members that have it, and of the
rest. -/
@[elab_as_elim]
theorem induct_of (top : P .top) (bottom : P .bottom) (atom : ∀ a, P (.atom a)) (equal : ∀ x y, P (.equal x y))
    (neg : ∀ e, P e → P (.neg e)) (of : ∀ c es, (∀ e ∈ es, P e) → P (Connective.of c es)) (task : ∀ t, P (.task t))
    (e : Expr) : P e :=
  Expr.induct top bottom atom equal neg (of .all) (of .any) task e

theorem Everywhere.negate (hP : P top ∧ P bottom) (hneg : ∀ e, P (neg e)) (h : e.Everywhere P) :
    (negate e).Everywhere P := by
  cases e with
  | top => exact List.forall_mem_singleton.mpr hP.2
  | bottom => exact List.forall_mem_singleton.mpr hP.1
  | neg e => exact (everywhere_neg.mp h).2
  | _ => exact everywhere_neg.mpr ⟨hneg _, h⟩

end HtnPlanner.Expr
