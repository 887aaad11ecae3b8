import HtnPlanner.Ground.Problem
import HtnPlanner.Proofs.Ground.Tasks

/-!
Values that are read off the effects of actions stay as they are when these actions are executed.
-/

namespace HtnPlanner

variable {S adds deletes : Set Fact} {value : Fact → Option Bool}

/-! ### Effects and known values -/

structure Keeps (value : Fact → Option Bool) (adds deletes : Set Fact) : Prop where
  adds : ∀ f ∈ adds, value f ≠ some false
  deletes : ∀ f ∈ deletes, value f ≠ some true

theorem Keeps.agrees (h : Keeps value adds deletes) (hS : Expr.Agrees value S) :
    Expr.Agrees value ((S \ deletes) ∪ adds) := by
  intro f v hv
  have hf := hS f v hv
  cases v with
  | false =>
      have hadds : f ∉ adds := fun hf => h.adds f hf hv
      simp only [Bool.false_eq_true, iff_false] at hf
      simp [hf, hadds]
  | true =>
      have hdeletes : f ∉ deletes := fun hf => h.deletes f hf hv
      simp only [iff_true] at hf
      simp [hf, hdeletes]

theorem Keeps.apply_eq (h : Keeps value adds deletes) (hS : Expr.Agrees value S) :
    (S \ {f | f ∈ deletes ∧ value f = none}) ∪ {f | f ∈ adds ∧ value f = none} = (S \ deletes) ∪ adds := by
  ext f
  simp only [Set.mem_union, Set.mem_sdiff, Set.mem_ofPred_eq]
  cases hv : value f with
  | none => simp
  | some v =>
      have hafter := h.agrees hS f v hv
      simp only [Set.mem_union, Set.mem_sdiff] at hafter
      simpa [hafter] using hS f v hv

/-- A value is fixed just if it is the initial one and no action gives the fact the other one. -/
theorem Inertia.fixedValue_ofEffects (affected : Bool → Bool) {initially v : Bool} :
    (Inertia.ofEffects (affected true) (affected false)).fixedValue initially = some v ↔
      v = initially ∧ affected (!v) = false := by
  cases htrue : affected true <;> cases hfalse : affected false <;> cases initially <;> cases v <;>
    simp [ofEffects, fixedValue, htrue, hfalse]

theorem Inertia.eq_of_fixedValue {i : Inertia} {initially v : Bool} (h : i.fixedValue initially = some v) :
    v = initially := by
  revert h
  cases i <;> cases initially <;> simp [fixedValue, eq_comm]

/-! ### Effects of instances -/

theorem Expr.subst_eq_signed {e : Expr} {b : List Nat} {positive : Bool} {x : Atom} :
    e.subst b = (if positive then .atom x else .neg (.atom x)) ↔
      ∃ y : Atom, e = (if positive then .atom y else .neg (.atom y)) ∧ y.subst b = x := by
  cases e with
  | atom y => cases positive <;> simp [Expr.subst]
  | neg e => cases e <;> cases positive <;> simp [Expr.subst]
  | _ => cases positive <;> simp [Expr.subst]

namespace Schema.Action

variable {a x : Schema.Action} {b : List Nat} {positive : Bool} {f : Fact}

theorem mem_effect_iff : (f ∈ if positive then a.adds b else a.deletes b) ↔
    ∃ y : Atom, (if positive then Expr.atom y else .neg (.atom y)) ∈ a.effect.conjuncts ∧
      (y.subst b).fact? = some f := by
  cases positive <;> rfl

theorem mem_effect_instantiate (a : Schema.Action) (b : List Nat) (pre : Expr) (positive : Bool) :
    (f ∈ if positive then ({ a.instantiate b with precondition := pre } : Schema.Action).adds []
      else ({ a.instantiate b with precondition := pre } : Schema.Action).deletes []) ↔
        f ∈ if positive then a.adds b else a.deletes b := by
  simp only [mem_effect_iff, instantiate, Expr.conjuncts_subst, List.mem_map, Expr.subst_eq_signed, Atom.subst_nil]
  constructor
  · rintro ⟨_, ⟨_, hy, y, rfl, rfl⟩, hf⟩
    exact ⟨y, hy, hf⟩
  · rintro ⟨y, hy, hf⟩
    exact ⟨_, ⟨_, hy, y, rfl, rfl⟩, hf⟩

theorem adds_instantiate (a : Schema.Action) (b : List Nat) (pre : Expr) :
    ({ a.instantiate b with precondition := pre } : Schema.Action).adds [] = a.adds b :=
  Set.ext fun _ => mem_effect_instantiate a b pre true

theorem deletes_instantiate (a : Schema.Action) (b : List Nat) (pre : Expr) :
    ({ a.instantiate b with precondition := pre } : Schema.Action).deletes [] = a.deletes b :=
  Set.ext fun _ => mem_effect_instantiate a b pre false

/-- An effect whose literals can be read has these literals and no others. -/
theorem mem_effectLiterals (h : x.effect.literals? = some x.effectLiterals) :
    ⟨positive, f⟩ ∈ x.effectLiterals ↔ f ∈ if positive then x.adds [] else x.deletes [] := by
  rw [mem_effect_iff, effectLiterals, Expr.mem_literals h]
  simp only [Expr.literal?_eq_some, Atom.subst_nil]
  constructor
  · rintro ⟨_, hc, y, rfl, hf⟩
    exact ⟨y, hc, hf⟩
  · rintro ⟨y, hc, hf⟩
    exact ⟨_, hc, y, rfl, hf⟩

theorem setOf_added (h : x.effect.literals? = some x.effectLiterals) :
    {f | ⟨true, f⟩ ∈ x.effectLiterals} = x.adds [] :=
  Set.ext fun _ => mem_effectLiterals h

theorem setOf_deleted (h : x.effect.literals? = some x.effectLiterals) :
    {f | ⟨false, f⟩ ∈ x.effectLiterals} = x.deletes [] :=
  Set.ext fun _ => mem_effectLiterals h

/-- The facts that are true after the action: what it adds, and of the others what it does not delete. -/
def result (x : Action) (S : Set Fact) : Set Fact := (S \ x.deletes []) ∪ x.adds []

end Schema.Action

variable {s : Symbols} {b : List Nat}

/-- An instance of an effect is a conjunction of facts and negated facts. -/
theorem Expr.IsEffect.isClause_subst {e : Expr} (h : e.IsEffect s b.length) :
    (e.subst b).IsClause ∧ (e.subst b).IsGround := by
  obtain ⟨es, rfl, hl⟩ := h
  rw [Expr.subst, Expr.substAll_eq_map]
  refine ⟨List.forall_mem_map.mpr fun l hl' => ?_, Expr.over_conj.mpr (List.forall_mem_map.mpr fun l hl' => ?_)⟩
  · obtain ⟨x, -, rfl | rfl⟩ := hl l hl' <;> trivial
  · obtain ⟨x, hx, rfl | rfl⟩ := hl l hl' <;>
    · obtain ⟨g, hg⟩ := hx.exists_fact
      exact Option.isSome_iff_exists.mpr ⟨g, hg⟩

theorem Expr.IsEffect.mem_signedAtoms {e : Expr} {n : Nat} (h : e.IsEffect s n) {positive : Bool} {x : Atom} :
    (positive, x) ∈ e.signedAtoms true ↔ (if positive then Expr.atom x else .neg (.atom x)) ∈ e.conjuncts := by
  obtain ⟨es, rfl, hl⟩ := h
  simp only [Expr.signedAtoms, Expr.signedAtomsAll_eq_flatMap, List.mem_flatMap, Expr.conjuncts]
  constructor
  · rintro ⟨l, hmem, hx⟩
    obtain ⟨y, -, rfl | rfl⟩ := hl l hmem <;>
    · obtain ⟨rfl, rfl⟩ : positive = _ ∧ x = y := by simpa [Expr.signedAtoms] using hx
      exact hmem
  · intro hmem
    exact ⟨_, hmem, by cases positive <;> simp [Expr.signedAtoms]⟩

theorem Expr.IsEffect.fits_of_mem {e : Expr} {n : Nat} (h : e.IsEffect s n) {positive : Bool} {x : Atom}
    (hx : (if positive then Expr.atom x else .neg (.atom x)) ∈ e.conjuncts) : x.Fits s n := by
  obtain ⟨es, rfl, hl⟩ := h
  obtain ⟨y, hy, hxy⟩ := hl _ hx
  cases positive <;> simp_all

/-! ### Values read off the ground actions -/

namespace FactInertia

variable {actions : List Schema.Action} {init : List Fact} {x : Schema.Action} {f : Fact} {v : Bool}

theorem mem_effects {positive : Bool} :
    f ∈ effects actions positive ↔ ∃ x ∈ actions, ⟨positive, f⟩ ∈ x.effectLiterals := by
  simp only [effects, List.mem_eraseDups, List.mem_flatMap, List.mem_map, List.mem_filter, beq_iff_eq]
  constructor
  · rintro ⟨x, hx, ⟨q, g⟩, ⟨hl, rfl⟩, rfl⟩
    exact ⟨x, hx, hl⟩
  · rintro ⟨x, hx, hl⟩
    exact ⟨x, hx, _, ⟨hl, rfl⟩, rfl⟩

theorem fixedValue_eq_some_iff : (ofActions actions init).fixedValue f = some v ↔
    v = init.contains f ∧ ∀ x ∈ actions, ⟨!v, f⟩ ∉ x.effectLiterals := by
  have haffected : (effects actions (!v)).contains f = false ↔ ∀ x ∈ actions, ⟨!v, f⟩ ∉ x.effectLiterals := by
    rw [← Bool.not_eq_true, List.contains_iff_mem, mem_effects]
    push Not
    rfl
  rw [← haffected]
  exact Inertia.fixedValue_ofEffects fun positive => (effects actions positive).contains f

theorem agrees_init (actions : List Schema.Action) (init : List Fact) :
    Expr.Agrees (ofActions actions init).fixedValue {f | f ∈ init} := by
  intro f v hv
  rw [(fixedValue_eq_some_iff.mp hv).1, Set.mem_ofPred_eq, List.contains_iff_mem]

theorem keeps (init : List Fact) (hx : x ∈ actions) : Keeps (ofActions actions init).fixedValue
    {f | ⟨true, f⟩ ∈ x.effectLiterals} {f | ⟨false, f⟩ ∈ x.effectLiterals} :=
  ⟨fun _ hf hv => (fixedValue_eq_some_iff.mp hv).2 x hx hf, fun _ hf hv => (fixedValue_eq_some_iff.mp hv).2 x hx hf⟩

theorem exists_of_fixedValue_eq_none (h : (ofActions actions init).fixedValue f = none) :
    ∃ x ∈ actions, ⟨!init.contains f, f⟩ ∈ x.effectLiterals := by
  by_contra hunaffected
  push Not at hunaffected
  have hfixed := fixedValue_eq_some_iff.mpr ⟨rfl, hunaffected⟩
  exact Option.some_ne_none _ (hfixed.symm.trans h)

/-- No value is missed that is the initial one and that all of the actions keep. -/
theorem fixedValue_of_keeps (hinit : Expr.Agrees value {f | f ∈ init})
    (hkeeps : ∀ x ∈ actions, Keeps value {f | ⟨true, f⟩ ∈ x.effectLiterals} {f | ⟨false, f⟩ ∈ x.effectLiterals})
    (hv : value f = some v) : (ofActions actions init).fixedValue f = some v := by
  refine fixedValue_eq_some_iff.mpr ⟨?_, fun x hx hf => ?_⟩
  · rw [Bool.eq_iff_iff, List.contains_iff_mem]
    exact (hinit f v hv).symm
  · cases v with
    | false => exact (hkeeps x hx).adds f hf hv
    | true => exact (hkeeps x hx).deletes f hf hv

end FactInertia

namespace LiftedProblem

variable {p : LiftedProblem} {a x : Schema.Action} {instances : List Schema.Action} {init : List Fact} {f : Fact}
  {v : Bool}

/-! ### Values read off the lifted actions -/

theorem predicate_lt_size (hp : p.WellFormed) (ha : a ∈ p.actions) {positive : Bool} {y : Atom}
    (hy : (if positive then Expr.atom y else .neg (.atom y)) ∈ a.effect.conjuncts) :
    y.predicate < p.symbols.predicates.size := by
  obtain ⟨signature, hsignature, -⟩ := ((hp.actions a ha).effect.fits_of_mem hy).arity
  obtain ⟨e, he, -⟩ := Option.map_eq_some_iff.mp hsignature
  exact (List.getElem?_eq_some_iff.mp he).1

theorem affects_iff (hp : p.WellFormed) {positive : Bool} {i : Nat} :
    PredicateInertia.affects p.actions positive i = true ↔
      ∃ a ∈ p.actions, ∃ y : Atom, (if positive then Expr.atom y else .neg (.atom y)) ∈ a.effect.conjuncts ∧
        y.predicate = i := by
  rw [PredicateInertia.affects, List.any_eq_true]
  refine exists_congr fun a => and_congr_right fun ha => ?_
  simp only [List.any_eq_true, Prod.exists, Bool.and_eq_true, beq_iff_eq, (hp.actions a ha).effect.mem_signedAtoms]
  constructor
  · rintro ⟨_, y, hy, rfl, hi⟩
    exact ⟨y, hy, hi⟩
  · rintro ⟨y, hy, hi⟩
    exact ⟨_, y, hy, rfl, hi⟩

theorem fixedValue_eq_some_iff (hp : p.WellFormed) : p.inertia.fixedValue init f = some v ↔
    v = init.contains f ∧ ∀ a ∈ p.actions, ∀ y : Atom,
      (if !v then Expr.atom y else .neg (.atom y)) ∈ a.effect.conjuncts → y.predicate ≠ f.predicate := by
  have haffects : PredicateInertia.affects p.actions (!v) f.predicate = false ↔ ∀ a ∈ p.actions, ∀ y : Atom,
      (if !v then Expr.atom y else .neg (.atom y)) ∈ a.effect.conjuncts → y.predicate ≠ f.predicate := by
    rw [← Bool.not_eq_true, affects_iff hp]
    push Not
    rfl
  rw [← haffects]
  by_cases hf : f.predicate < p.symbols.predicates.size
  · have hclass : p.inertia.of f.predicate = .ofEffects (PredicateInertia.affects p.actions true f.predicate)
        (PredicateInertia.affects p.actions false f.predicate) := by
      simp [inertia, PredicateInertia.ofActions, PredicateInertia.of, List.getD_eq_getElem?_getD, hf]
    rw [PredicateInertia.fixedValue, hclass]
    exact Inertia.fixedValue_ofEffects fun positive => PredicateInertia.affects p.actions positive f.predicate
  · have hstatic : p.inertia.of f.predicate = .static := by
      simp [inertia, PredicateInertia.ofActions, PredicateInertia.of, List.getD_eq_getElem?_getD, hf]
    have hunaffected : PredicateInertia.affects p.actions (!v) f.predicate = false := by
      rw [haffects]
      rintro a ha y hy heq
      exact hf (heq ▸ predicate_lt_size hp ha hy)
    rw [PredicateInertia.fixedValue, hstatic, Inertia.fixedValue, Option.some.injEq, eq_comm]
    exact (and_iff_left hunaffected).symm

theorem exists_of_fixedValue_eq_none (hp : p.WellFormed) (h : p.inertia.fixedValue init f = none) :
    ∃ a ∈ p.actions, ∃ y : Atom, y.predicate = f.predicate ∧
      (if !init.contains f then Expr.atom y else .neg (.atom y)) ∈ a.effect.conjuncts := by
  by_contra hunaffected
  push Not at hunaffected
  have hfixed := (fixedValue_eq_some_iff hp).mpr ⟨rfl, fun a ha y hy hpredicate => hunaffected a ha y hpredicate hy⟩
  exact Option.some_ne_none _ (hfixed.symm.trans h)

theorem agrees_init (p : LiftedProblem) (init : List Fact) :
    Expr.Agrees (p.inertia.fixedValue init) {f | f ∈ init} := by
  intro f v hv
  rw [Inertia.eq_of_fixedValue hv, Set.mem_ofPred_eq, List.contains_iff_mem]

/-- Actions keep the values that are read off the classes of predicates. -/
theorem keeps_fixedValue (hp : p.WellFormed) (ha : a ∈ p.actions) :
    Keeps (p.inertia.fixedValue init) (a.adds b) (a.deletes b) := by
  have hpredicate : ∀ {y : Atom} {f : Fact}, (y.subst b).fact? = some f → y.predicate = f.predicate := by
    intro y f hfact
    obtain ⟨cs, -, rfl⟩ := Option.map_eq_some_iff.mp hfact
    rfl
  refine ⟨fun f hf hv => ?_, fun f hf hv => ?_⟩
  · obtain ⟨y, hy, hfact⟩ := hf
    exact ((fixedValue_eq_some_iff hp).mp hv).2 a ha y hy (hpredicate hfact)
  · obtain ⟨y, hy, hfact⟩ := hf
    exact ((fixedValue_eq_some_iff hp).mp hv).2 a ha y hy (hpredicate hfact)

/-! ### Instances -/

/-- An instance of one of the actions for constants of the right types, whatever became of its precondition. -/
def Instantiates (p : LiftedProblem) (x : Schema.Action) : Prop :=
  ∃ a ∈ p.actions, ∃ b pre, p.Accepts a.parameters b ∧ x = { a.instantiate b with precondition := pre }

theorem instantiates_groundActions (hp : p.WellFormed) : ∀ x ∈ p.groundActions, p.Instantiates x := by
  intro x hx
  obtain ⟨a, ha, b, pre, hb, -, rfl⟩ := of_mem_groundActions hp hx
  exact ⟨a, ha, b, pre, hb, rfl⟩

theorem Instantiates.literals?_effect (h : p.Instantiates x) (hp : p.WellFormed) :
    x.effect.literals? = some x.effectLiterals := by
  obtain ⟨a, ha, b, pre, hb, rfl⟩ := h
  have heffect := (hp.actions a ha).effect
  rw [← (accepts_iff.mp hb).1] at heffect
  obtain ⟨hclause, hground⟩ := heffect.isClause_subst
  exact Expr.literals?_eq_some hclause (Expr.Over.conjuncts hground)

theorem Instantiates.keeps (h : p.Instantiates x) (hp : p.WellFormed) :
    Keeps (p.inertia.fixedValue init) (x.adds []) (x.deletes []) := by
  obtain ⟨a, ha, b, pre, -, rfl⟩ := h
  rw [Schema.Action.adds_instantiate, Schema.Action.deletes_instantiate]
  exact keeps_fixedValue hp ha

theorem keeps_factInertia (hp : p.WellFormed) (hinstances : ∀ x ∈ instances, p.Instantiates x) :
    ∀ x ∈ instances, Keeps (FactInertia.ofActions instances init).fixedValue (x.adds []) (x.deletes []) := by
  intro x hx
  have hread := (hinstances x hx).literals?_effect hp
  rw [← Schema.Action.setOf_added hread, ← Schema.Action.setOf_deleted hread]
  exact FactInertia.keeps init hx

/-- What is known of a predicate is known of each of its facts. -/
theorem factInertia_refines (hp : p.WellFormed) (hinstances : ∀ x ∈ instances, p.Instantiates x)
    (hv : p.inertia.fixedValue init f = some v) : (FactInertia.ofActions instances init).fixedValue f = some v := by
  refine FactInertia.fixedValue_of_keeps (p.agrees_init init) (fun x hx => ?_) hv
  have hread := (hinstances x hx).literals?_effect hp
  rw [Schema.Action.setOf_added hread, Schema.Action.setOf_deleted hread]
  exact (hinstances x hx).keeps hp

/-- The classes of the facts of the ground problem. -/
def factInertia (p : LiftedProblem) : FactInertia := .ofActions p.groundActions p.init

end LiftedProblem

end HtnPlanner
