import HtnPlanner.Proofs.Expr.Connective
import HtnPlanner.Proofs.Expr.Meaning

/-!
What expressions are built from, and the shapes that simplification and the disjunctive normal form
leave: a variant is one flat conjunction of literals, and an instance of it has nothing but facts.
-/

namespace HtnPlanner.Expr

mutual

/-- Every atom satisfies `A`, every equality is between arguments related by `E`, and there are no
tasks. -/
def Over (A : Atom → Prop) (E : Arg → Arg → Prop) : Expr → Prop
  | top => True
  | bottom => True
  | atom a => A a
  | equal x y => E x y
  | neg e => Over A E e
  | conj es => OverAll A E es
  | disj es => OverAll A E es
  | task _ => False

def OverAll (A : Atom → Prop) (E : Arg → Arg → Prop) : List Expr → Prop
  | [] => True
  | e :: es => Over A E e ∧ OverAll A E es

end

variable {A A' : Atom → Prop} {E E' : Arg → Arg → Prop}

@[simp] theorem overAll_iff {es : List Expr} : OverAll A E es ↔ ∀ e ∈ es, e.Over A E := by
  induction es with
  | nil => simp [OverAll]
  | cons e es ih => simp [OverAll, ih]

theorem over_conj {es : List Expr} : (conj es).Over A E ↔ ∀ e ∈ es, e.Over A E := by
  rw [Over, overAll_iff]

theorem over_disj {es : List Expr} : (disj es).Over A E ↔ ∀ e ∈ es, e.Over A E := by
  rw [Over, overAll_iff]

theorem Over.mono {e : Expr} (h : e.Over A E) (hA : ∀ a, A a → A' a) (hE : ∀ x y, E x y → E' x y) :
    e.Over A' E' := by
  induction e using Expr.induct with
  | top | bottom => trivial
  | task t => exact h
  | atom a => exact hA a h
  | equal x y => exact hE x y h
  | neg e ih => exact ih h
  | conj es ih => exact over_conj.mpr fun e he => ih e he (over_conj.mp h e he)
  | disj es ih => exact over_disj.mpr fun e he => ih e he (over_disj.mp h e he)

theorem Over.subst {e : Expr} {b : List Nat} (h : e.Over A E) (hA : ∀ a, A a → A' (a.subst b))
    (hE : ∀ x y, E x y → E' (x.subst b) (y.subst b)) : (e.subst b).Over A' E' := by
  induction e using Expr.induct with
  | top | bottom => trivial
  | task t => exact h
  | atom a => exact hA a h
  | equal x y => exact hE x y h
  | neg e ih => exact ih h
  | conj es ih =>
      rw [Expr.subst, over_conj, substAll_eq_map, List.forall_mem_map]
      exact fun e he => ih e he (over_conj.mp h e he)
  | disj es ih =>
      rw [Expr.subst, over_disj, substAll_eq_map, List.forall_mem_map]
      exact fun e he => ih e he (over_disj.mp h e he)

theorem Over.conjuncts {e : Expr} (h : e.Over A E) : ∀ c ∈ e.conjuncts, c.Over A E := by
  cases e with
  | top => exact fun c hc => absurd hc List.not_mem_nil
  | conj es => exact over_conj.mp h
  | _ => exact List.forall_mem_singleton.mpr h

theorem Over.of_signedAtoms (positive : Bool) {e : Expr} (h : e.Over A E)
    (hA : ∀ s ∈ e.signedAtoms positive, A' s.2) : e.Over A' E := by
  induction e using Expr.induct generalizing positive with
  | top | bottom => trivial
  | task t => exact h
  | atom a => exact hA (positive, a) List.mem_cons_self
  | equal x y => exact h
  | neg e ih => exact ih (!positive) h hA
  | conj es ih =>
      simp only [signedAtoms, signedAtomsAll_eq_flatMap, List.mem_flatMap] at hA
      exact over_conj.mpr fun e he =>
        ih e he positive (over_conj.mp h e he) fun s hs => hA s ⟨e, he, hs⟩
  | disj es ih =>
      simp only [signedAtoms, signedAtomsAll_eq_flatMap, List.mem_flatMap] at hA
      exact over_disj.mpr fun e he =>
        ih e he positive (over_disj.mp h e he) fun s hs => hA s ⟨e, he, hs⟩

theorem Over.of_mem_signedAtoms {e : Expr} {positive : Bool} {q : Bool × Atom} (h : e.Over A E)
    (hq : q ∈ e.signedAtoms positive) : A q.2 := by
  induction e using Expr.induct generalizing positive with
  | top | bottom | equal x y => exact absurd hq List.not_mem_nil
  | task t => exact absurd h id
  | atom a => rwa [List.mem_singleton.mp hq]
  | neg e ih => exact ih h hq
  | conj es ih =>
      simp only [signedAtoms, signedAtomsAll_eq_flatMap, List.mem_flatMap] at hq
      obtain ⟨e, he, hq⟩ := hq
      exact ih e he (over_conj.mp h e he) hq
  | disj es ih =>
      simp only [signedAtoms, signedAtomsAll_eq_flatMap, List.mem_flatMap] at hq
      obtain ⟨e, he, hq⟩ := hq
      exact ih e he (over_disj.mp h e he) hq

/-! ### Simplification builds nothing new -/

/-- A conjunction or disjunction satisfies `Q` if its members do. -/
structure Hereditary (Q : Expr → Prop) : Prop where
  top : Q top
  bottom : Q bottom
  conj : ∀ es, Q (conj es) ↔ ∀ e ∈ es, Q e
  disj : ∀ es, Q (disj es) ↔ ∀ e ∈ es, Q e

namespace Hereditary

variable {Q : Expr → Prop} (hQ : Hereditary Q)

include hQ

theorem of (c : Connective) (es : List Expr) : Q (c.of es) ↔ ∀ e ∈ es, Q e := by
  cases c with
  | all => exact hQ.conj es
  | any => exact hQ.disj es

theorem join (c : Connective) {es : List Expr} (h : ∀ e ∈ es, Q e) : Q (c.join es) := by
  refine Connective.join_induction (fun e he _ _ => h e he) (fun fs hfs => (hQ.of c fs).mp (h _ hfs)) ?_ ?_
    (fun _ hp => hp) fun _ hps => (hQ.of c _).mpr hps
  · cases c with
    | all => exact hQ.bottom
    | any => exact hQ.top
  · cases c with
    | all => exact hQ.top
    | any => exact hQ.bottom

theorem simplify {Q' : Expr → Prop} (c : Connective) {es : List Expr} (h : ∀ e ∈ es, Q' e → Q e.simplify)
    (hes : ∀ e ∈ es, Q' e) : Q (c.of es).simplify := by
  rw [c.simplify_of]
  exact hQ.join c (List.forall_mem_map.mpr fun e he => h e he (hes e he))

end Hereditary

theorem hereditary_over : Hereditary (Over A E) :=
  ⟨trivial, trivial, fun _ => over_conj, fun _ => over_disj⟩

theorem over_negate {e : Expr} (h : e.Over A E) : (negate e).Over A E := by
  cases e with
  | top | bottom => trivial
  | _ => exact h

theorem over_equate {x y : Arg} (h : E x y) : (equate x y).Over A E := by
  have hother : (if x = y then top else equal x y).Over A E := by
    split
    · trivial
    · exact h
  cases x with
  | slot i => exact hother
  | const c =>
      cases y with
      | slot j => exact hother
      | const d => rw [equate]; split <;> trivial

theorem over_equate_const {x y : Arg} (hx : x.const?.isSome) (hy : y.const?.isSome) :
    (equate x y).Over A fun _ _ => False := by
  cases x with
  | slot i => exact absurd hx (by simp [Arg.const?])
  | const c =>
      cases y with
      | slot j => exact absurd hy (by simp [Arg.const?])
      | const d => rw [equate]; split <;> trivial

theorem Over.simplify {e : Expr} (h : e.Over A E) (hE : ∀ x y, E x y → (equate x y).Over A E') :
    e.simplify.Over A E' := by
  induction e using induct_of with
  | top | bottom => trivial
  | task t => exact h
  | atom a => exact h
  | equal x y => exact hE x y h
  | neg e ih => exact over_negate (ih h)
  | of c es ih => exact hereditary_over.simplify c ih ((hereditary_over.of c es).mp h)

theorem over_settleAtom {value : Fact → Option Bool} {a : Atom} (h : A a) :
    (settleAtom value a).Over (fun a => A a ∧ a.fact?.bind value = none) E := by
  rw [settleAtom]
  split
  · trivial
  · trivial
  · next hnone => exact ⟨h, hnone⟩

/-- Only atoms without a value are left. -/
theorem Over.settle {e : Expr} (h : e.Over A E) (value : Fact → Option Bool) :
    (e.settle value).Over (fun a => A a ∧ a.fact?.bind value = none) E := by
  induction e using Expr.induct with
  | top | bottom => trivial
  | task t => exact h
  | atom a => exact over_settleAtom h
  | equal x y => exact h
  | neg e ih => exact ih h
  | conj es ih =>
      rw [Expr.settle, over_conj, settleAll_eq_map, List.forall_mem_map]
      exact fun e he => ih e he (over_conj.mp h e he)
  | disj es ih =>
      rw [Expr.settle, over_disj, settleAll_eq_map, List.forall_mem_map]
      exact fun e he => ih e he (over_disj.mp h e he)

theorem Over.assign {e : Expr} (h : e.Over A E) (value : Fact → Option Bool)
    (hE : ∀ x y, E x y → (equate x y).Over A E') : (e.assign value).Over A E' :=
  ((h.settle value).mono (fun _ ha => ha.1) fun _ _ hxy => hxy).simplify hE

/-- No fact is mentioned that has a value. -/
def Unknown (value : Fact → Option Bool) (e : Expr) : Prop :=
  e.Over (fun a => a.fact?.bind value = none) fun _ _ => True

theorem Over.unknown_assign {e : Expr} (h : e.Over A E) (value : Fact → Option Bool) :
    (e.assign value).Unknown value := by
  have hsettled : (e.settle value).Unknown value := (h.settle value).mono (fun _ ha => ha.2) fun _ _ _ => trivial
  exact Over.simplify hsettled fun x y _ => over_equate (E := fun _ _ => True) trivial

theorem Unknown.of_mem_facts {e : Expr} {value : Fact → Option Bool} (h : e.Unknown value) {f : Fact}
    (hf : f ∈ e.facts) : value f = none := by
  obtain ⟨q, hq, hqf⟩ := List.mem_filterMap.mp hf
  have hnone : q.2.fact?.bind value = none := h.of_mem_signedAtoms hq
  rwa [hqf, Option.bind_some] at hnone

theorem Over.nnf {e : Expr} (h : e.Over A E) (positive : Bool) : (e.nnf positive).Over A E := by
  induction e using Expr.induct generalizing positive with
  | top | bottom => cases positive <;> trivial
  | task t => exact absurd h id
  | atom a => cases positive <;> exact h
  | equal x y => cases positive <;> exact h
  | neg e ih => exact ih h _
  | conj es ih =>
      have hes : ∀ e ∈ nnfAll positive es, e.Over A E := by
        rw [nnfAll_eq_map, List.forall_mem_map]
        exact fun e he => ih e he (over_conj.mp h e he) positive
      cases positive with
      | true => exact over_conj.mpr hes
      | false => exact over_disj.mpr hes
  | disj es ih =>
      have hes : ∀ e ∈ nnfAll positive es, e.Over A E := by
        rw [nnfAll_eq_map, List.forall_mem_map]
        exact fun e he => ih e he (over_disj.mp h e he) positive
      cases positive with
      | true => exact over_disj.mpr hes
      | false => exact over_conj.mpr hes

end HtnPlanner.Expr
