import HtnPlanner.Proofs.Expr.Connective
import HtnPlanner.Proofs.Expr.Meaning

/-!
Simplification leaves a truth value, or an expression in which there is nothing left to fold at any depth. Where atoms
have been replaced by their values, no atom that has one is left.
-/

namespace HtnPlanner.Expr

variable {P : Expr → Prop} {e : Expr} {es : List Expr} {c : Connective}

/-- Nothing can be folded here. -/
def FoldedAt : Expr → Prop
  | top | bottom => False
  | atom _ | task _ => True
  | equal x y => x ≠ y ∧ (x.const? = none ∨ y.const? = none)
  | neg e => ∀ f, e ≠ neg f
  | conj es => 2 ≤ es.length ∧ ∀ fs, conj fs ∉ es
  | disj es => 2 ≤ es.length ∧ ∀ fs, disj fs ∉ es

/-- There is no truth value in it, no equality of constants or of an argument with itself, no negation of a negation,
no conjunction as a member of a conjunction or disjunction as a member of a disjunction, and neither of these has fewer
than two members. -/
def Folded (e : Expr) : Prop := e.Everywhere FoldedAt

def Reduced (e : Expr) : Prop := e = top ∨ e = bottom ∨ e.Folded

theorem folded_of : (c.of es).Folded ↔ (2 ≤ es.length ∧ ∀ fs, c.of fs ∉ es) ∧ ∀ e ∈ es, e.Folded := by
  have hat : (c.of es).FoldedAt ↔ 2 ≤ es.length ∧ ∀ fs, c.of fs ∉ es := by cases c <;> rfl
  rw [Folded, c.everywhere_of, hat]
  rfl

theorem Folded.ne_unit (h : e.Folded) (c : Connective) : e ≠ c.unit := by
  rintro rfl
  cases c <;> exact h.self

theorem Folded.ne_zero (h : e.Folded) (c : Connective) : e ≠ c.zero := by
  rintro rfl
  cases c <;> exact h.self

theorem reduced_iff (c : Connective) : e.Reduced ↔ e = c.unit ∨ e = c.zero ∨ e.Folded := by
  cases c with
  | all => rfl
  | any => exact or_left_comm

/-- Members are neither left out nor taken over, and they do not absorb the others. -/
theorem Folded.single (hf : (c.of es).Folded) (he : e ∈ es) : c.Single e := by
  obtain ⟨⟨-, hflat⟩, hmembers⟩ := folded_of.mp hf
  exact ⟨(hmembers e he).ne_unit c, fun fs heq => hflat fs (heq ▸ he)⟩

theorem Folded.zero_not_mem (hf : (c.of es).Folded) : c.zero ∉ es :=
  fun hz => ((folded_of.mp hf).2 _ hz).ne_zero c rfl

theorem Reduced.folded (h : (c.of es).Reduced) : (c.of es).Folded := by
  rcases h with h | h | h
  · cases c <;> exact nomatch h
  · cases c <;> exact nomatch h
  · exact h

/-- Conjunctions are written in one way only. -/
theorem Reduced.conjOf_conjuncts (h : e.Reduced) : conjOf e.conjuncts = e := by
  cases e with
  | conj es =>
      have htwo : 2 ≤ es.length := (folded_of.mp (Reduced.folded (c := .all) h)).1.1
      match es, htwo with
      | _ :: _ :: _, _ => rfl
  | _ => rfl

theorem folded_equal_of_ne {x y : Arg} (h : x ≠ y) (hconst : x.const? = none ∨ y.const? = none) :
    (equal x y).Folded :=
  List.forall_mem_singleton.mpr ⟨h, hconst⟩

theorem reduced_equate (x y : Arg) : (equate x y).Reduced := by
  have hother (hconst : x.const? = none ∨ y.const? = none) : (if x = y then top else equal x y).Reduced := by
    split
    · exact Or.inl rfl
    · next h => exact Or.inr (Or.inr (folded_equal_of_ne h hconst))
  cases x with
  | slot i => exact hother (Or.inl rfl)
  | const c =>
      cases y with
      | slot j => exact hother (Or.inr rfl)
      | const d =>
          rw [equate]
          split
          · exact Or.inl rfl
          · exact Or.inr (Or.inl rfl)

theorem Reduced.negate (h : e.Reduced) : (negate e).Reduced := by
  rcases h with rfl | rfl | h
  · exact Or.inr (Or.inl rfl)
  · exact Or.inl rfl
  · right; right
    cases e with
    | top => exact h.self.elim
    | bottom => exact h.self.elim
    | neg e => exact (everywhere_neg.mp h).2
    | _ => exact everywhere_neg.mpr ⟨fun f => by simp, h⟩

/-- The parts are folded and none of them is to be taken over, so that nothing is left to fold in what they make. -/
theorem Connective.reduced_join (h : ∀ e ∈ es, e.Reduced) : (c.join es).Reduced := by
  have hsingle (e : Expr) (he : e ∈ es) (hs : c.Single e) (hzero : e ≠ c.zero) : e.Folded ∧ ∀ fs, e ≠ c.of fs :=
    ⟨(((reduced_iff c).mp (h e he)).resolve_left hs.ne_unit).resolve_left hzero, hs.ne_of⟩
  have hnested (fs : List Expr) (hfs : c.of fs ∈ es) : ∀ f ∈ fs, f.Folded ∧ ∀ gs, f ≠ c.of gs := by
    have hfolded := (h _ hfs).folded
    exact fun f hf => ⟨(folded_of.mp hfolded).2 f hf, (hfolded.single hf).ne_of⟩
  refine join_induction hsingle hnested ?_ ?_ ?_ fun htwo hps => ?_
  · exact (reduced_iff c).mpr (Or.inr (Or.inl rfl))
  · exact (reduced_iff c).mpr (Or.inl rfl)
  · exact fun p hp => Or.inr (Or.inr hp.1)
  · exact Or.inr (Or.inr (folded_of.mpr
      ⟨⟨htwo, fun fs hfs => (hps _ hfs).2 fs rfl⟩, fun p hp => (hps p hp).1⟩))

theorem reduced_simplify (e : Expr) : e.simplify.Reduced := by
  induction e using induct_of with
  | top => exact Or.inl rfl
  | bottom => exact Or.inr (Or.inl rfl)
  | atom a => exact Or.inr (Or.inr (List.forall_mem_singleton.mpr trivial))
  | task t => exact Or.inr (Or.inr (List.forall_mem_singleton.mpr trivial))
  | equal x y => exact reduced_equate x y
  | neg e ih => exact ih.negate
  | of c es ih =>
      rw [c.simplify_of]
      exact Connective.reduced_join (List.forall_mem_map.mpr ih)

/-! ### Atoms with a value -/

/-- Simplification brings in truth values and connectives only. -/
theorem Everywhere.simplify (hP : ∀ n, (∀ a, n ≠ atom a) → P n) (h : e.Everywhere P) : e.simplify.Everywhere P := by
  induction e using induct_of with
  | top | bottom => exact h
  | atom a => exact h
  | task t => exact h
  | equal x y =>
      unfold Expr.simplify equate
      split <;> split <;> exact List.forall_mem_singleton.mpr (hP _ (by simp))
  | neg e ih =>
      exact (ih (everywhere_neg.mp h).2).negate ⟨hP _ (by simp), hP _ (by simp)⟩ fun e => hP _ (by simp)
  | of c es ih =>
      have hmembers : ∀ e ∈ es.map Expr.simplify, e.Everywhere P :=
        List.forall_mem_map.mpr fun e he => ih e he ((c.everywhere_of.mp h).2 e he)
      rw [c.simplify_of]
      refine Connective.join_induction (fun e he _ _ => hmembers e he)
        (fun fs hfs => (c.everywhere_of.mp (hmembers _ hfs)).2) ?_ ?_ (fun _ hp => hp) fun _ hps => ?_
      · exact c.everywhere_zero.mpr (hP _ c.zero_ne_atom)
      · exact c.everywhere_unit.mpr (hP _ c.unit_ne_atom)
      · exact c.everywhere_of.mpr ⟨hP _ (c.of_ne_atom _), hps⟩

/-- It is not an atom that has a value. -/
def Open (value : Fact → Option Bool) (e : Expr) : Prop := ∀ a f, e = atom a → a.fact? = some f → value f = none

theorem open_of_ne_atom {value : Fact → Option Bool} (h : ∀ a, e ≠ atom a) : e.Open value :=
  fun a _ heq _ => absurd heq (h a)

theorem everywhere_settleAtom (value : Fact → Option Bool) (a : Atom) :
    (settleAtom value a).Everywhere (Open value) := by
  rw [settleAtom]
  split
  · exact List.forall_mem_singleton.mpr (open_of_ne_atom (by simp))
  · exact List.forall_mem_singleton.mpr (open_of_ne_atom (by simp))
  · next hnone =>
      refine List.forall_mem_singleton.mpr fun b f heq hf => ?_
      rwa [atom.inj heq, hf, Option.bind_some] at hnone

theorem everywhere_settle (value : Fact → Option Bool) (e : Expr) : (e.settle value).Everywhere (Open value) := by
  induction e using induct_of with
  | top | bottom => exact List.forall_mem_singleton.mpr (open_of_ne_atom fun _ => nofun)
  | atom a => exact everywhere_settleAtom value a
  | task t => exact List.forall_mem_singleton.mpr (open_of_ne_atom fun _ => nofun)
  | equal x y => exact List.forall_mem_singleton.mpr (open_of_ne_atom fun _ => nofun)
  | neg e ih => exact everywhere_neg.mpr ⟨open_of_ne_atom fun _ => nofun, ih⟩
  | of c es ih =>
      rw [c.settle_of]
      exact c.everywhere_of.mpr ⟨open_of_ne_atom (c.of_ne_atom _), List.forall_mem_map.mpr ih⟩

/-- Simplification keeps the truth value and leaves a truth value or nothing to fold. So does replacing atoms by their
values, if these are right, and no atom is left that has one. -/
theorem simplify_and_assign_fold (e : Expr) :
    (∀ b S, e.simplify.Holds b S ↔ e.Holds b S) ∧ e.simplify.Reduced ∧
      ∀ value, (∀ b S, Agrees value S → ((e.assign value).Holds b S ↔ e.Holds b S)) ∧ (e.assign value).Reduced ∧
        ∀ a f, atom a ∈ (e.assign value).nodes → a.fact? = some f → value f = none := by
  refine ⟨fun b S => holds_simplify e, reduced_simplify e, fun value =>
    ⟨fun b S h => holds_assign h e, reduced_simplify _, fun a f ha hf => ?_⟩⟩
  exact (everywhere_settle value e).simplify (fun _ => open_of_ne_atom) _ ha a f rfl hf

/-- A lamp is known to be on. -/
theorem simplify_and_assign_fold_lamp :
    let value : Fact → Option Bool := fun f => if f = ⟨0, [1]⟩ then some true else none
    let e := conj [atom ⟨0, [.const 1]⟩, neg (neg (disj [atom ⟨0, [.const 2]⟩, bottom])), conj [atom ⟨1, []⟩]]
    e.assign value = conj [atom ⟨0, [.const 2]⟩, atom ⟨1, []⟩] ∧
      Agrees value {⟨0, [1]⟩, ⟨1, []⟩} ∧
      ((e.assign value).Holds [] {⟨0, [1]⟩, ⟨1, []⟩} ↔ e.Holds [] {⟨0, [1]⟩, ⟨1, []⟩}) ∧
      atom ⟨1, []⟩ ∈ (e.assign value).nodes ∧ value ⟨1, []⟩ = none := by
  intro value e
  have hagrees : Agrees value {⟨0, [1]⟩, ⟨1, []⟩} := by
    intro f v hv
    obtain ⟨rfl, htrue⟩ := Option.ite_none_right_eq_some.mp hv
    obtain rfl := Option.some.inj htrue
    exact iff_of_true (Or.inl rfl) rfl
  have hmem : atom ⟨1, []⟩ ∈ (e.assign value).nodes := by decide
  obtain ⟨-, -, hassign⟩ := simplify_and_assign_fold e
  obtain ⟨hholds, -, hopen⟩ := hassign value
  exact ⟨by decide, hagrees, hholds [] _ hagrees, hmem, hopen _ ⟨1, []⟩ hmem rfl⟩

end HtnPlanner.Expr
