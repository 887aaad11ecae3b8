import HtnPlanner.Expr.NormalForm
import Mathlib.Data.Set.Basic
import Mathlib.Tactic.Common

/-!
When an expression is true. Simplification, the disjunctive normal form and its variants keep the
truth value, and so does replacing atoms whose value is known.
-/

namespace HtnPlanner

@[simp] theorem Arg.subst_nil (x : Arg) : x.subst [] = x := by
  cases x <;> rfl

theorem Atom.subst_nil (a : Atom) : a.subst [] = a := by
  simp only [Atom.subst, Arg.subst_nil, List.map_id']

theorem TaskRef.subst_nil (t : TaskRef) : t.subst [] = t := by
  simp only [TaskRef.subst, Arg.subst_nil, List.map_id']

theorem Expr.subst_nil (e : Expr) : e.subst [] = e := by
  have hmap : ∀ es : List Expr, (∀ e ∈ es, e.subst [] = e) → es.map (Expr.subst []) = es :=
    fun es ih => (List.map_congr_left ih).trans (List.map_id' es)
  induction e using Expr.induct with
  | top => rfl
  | bottom => rfl
  | atom a => rw [subst, Atom.subst_nil]
  | equal x y => rw [subst, Arg.subst_nil, Arg.subst_nil]
  | neg e ih => rw [subst, ih]
  | conj es ih => rw [subst, substAll_eq_map, hmap es ih]
  | disj es ih => rw [subst, substAll_eq_map, hmap es ih]
  | task t => rw [subst, TaskRef.subst_nil]

theorem Arg.eq_const_of_const? {x : Arg} {c : Nat} (h : x.const? = some c) : x = .const c := by
  cases x with
  | const d => exact congrArg _ (Option.some.inj h)
  | slot i => exact absurd h (by simp [Arg.const?])

theorem eq_map_of_mapM_eq_some {α β : Type} {f : α → Option β} {g : β → α} (hg : ∀ a b, f a = some b → a = g b)
    {as : List α} {bs : List β} (h : as.mapM f = some bs) : as = bs.map g := by
  induction as generalizing bs with
  | nil => simp only [List.mapM_nil, Option.pure_def, Option.some.injEq] at h; simp [← h]
  | cons a as ih =>
      simp only [List.mapM_cons, Option.pure_def, Option.bind_eq_bind, Option.bind_eq_some_iff,
        Option.some.injEq] at h
      obtain ⟨b, hb, cs, hcs, rfl⟩ := h
      rw [List.map_cons, ← ih hcs, ← hg a b hb]

theorem args_eq_map_const {args : List Arg} {cs : List Nat} (h : args.mapM Arg.const? = some cs) :
    args = cs.map .const :=
  eq_map_of_mapM_eq_some (fun _ _ => Arg.eq_const_of_const?) h

theorem mapM_const?_map_const (cs : List Nat) : (cs.map Arg.const).mapM Arg.const? = some cs := by
  induction cs with
  | nil => rfl
  | cons c cs ih => simp [Arg.const?, ih]

theorem Atom.eq_ofFact {a : Atom} {f : Fact} (h : a.fact? = some f) : a = .ofFact f := by
  obtain ⟨cs, hcs, rfl⟩ := Option.map_eq_some_iff.mp h
  cases a
  exact congrArg _ (args_eq_map_const hcs)

@[simp] theorem Atom.fact?_ofFact (f : Fact) : (Atom.ofFact f).fact? = some f := by
  rw [Atom.fact?, Atom.ofFact, mapM_const?_map_const]
  rfl

@[simp] theorem Atom.subst_ofFact (b : List Nat) (f : Fact) : (Atom.ofFact f).subst b = .ofFact f := by
  simp [Atom.subst, Atom.ofFact, Arg.subst]

namespace Expr

mutual

/-- The expression is true when the slots are bound by `b` and exactly the facts of `S` are true. A
slot without a value is equal to itself only, and an atom with such a slot is false. -/
def Holds (b : List Nat) (S : Set Fact) : Expr → Prop
  | top => True
  | bottom => False
  | atom a => ∃ f ∈ S, (a.subst b).fact? = some f
  | equal x y => x.subst b = y.subst b
  | neg e => ¬ Holds b S e
  | conj es => HoldsAll b S es
  | disj es => HoldsAny b S es
  | task _ => False

def HoldsAll (b : List Nat) (S : Set Fact) : List Expr → Prop
  | [] => True
  | e :: es => Holds b S e ∧ HoldsAll b S es

def HoldsAny (b : List Nat) (S : Set Fact) : List Expr → Prop
  | [] => False
  | e :: es => Holds b S e ∨ HoldsAny b S es

end

variable {b : List Nat} {S : Set Fact}

@[simp] theorem holdsAll_iff {es : List Expr} : HoldsAll b S es ↔ ∀ e ∈ es, e.Holds b S := by
  induction es with
  | nil => simp [HoldsAll]
  | cons e es ih => simp [HoldsAll, ih]

@[simp] theorem holdsAny_iff {es : List Expr} : HoldsAny b S es ↔ ∃ e ∈ es, e.Holds b S := by
  induction es with
  | nil => simp [HoldsAny]
  | cons e es ih => simp [HoldsAny, ih]

@[simp] theorem holds_top : top.Holds b S := trivial

@[simp] theorem not_holds_bottom : ¬ bottom.Holds b S := id

theorem holds_neg {e : Expr} : (neg e).Holds b S ↔ ¬ e.Holds b S := by rw [Holds]

theorem holds_conj {es : List Expr} : (conj es).Holds b S ↔ ∀ e ∈ es, e.Holds b S := by
  rw [Holds, holdsAll_iff]

theorem holds_disj {es : List Expr} : (disj es).Holds b S ↔ ∃ e ∈ es, e.Holds b S := by
  rw [Holds, holdsAny_iff]

theorem holds_subst {e : Expr} : (e.subst b).Holds [] S ↔ e.Holds b S := by
  induction e using Expr.induct with
  | top | bottom => rfl
  | task t => rfl
  | atom a => simp only [subst, Holds, Atom.subst_nil]
  | equal x y => simp only [subst, Holds, Arg.subst_nil]
  | neg e ih => rw [subst, holds_neg, holds_neg, ih]
  | conj es ih =>
      rw [subst, holds_conj, holds_conj, substAll_eq_map, List.forall_mem_map]
      exact forall₂_congr ih
  | disj es ih =>
      rw [subst, holds_disj, holds_disj, substAll_eq_map]
      simpa using exists_congr fun e => and_congr_right (ih e)

/-! ### Simplification -/

theorem holds_conjOf (es : List Expr) : (conjOf es).Holds b S ↔ ∀ e ∈ es, e.Holds b S := by
  match es with
  | [] => simp [conjOf]
  | [e] => simp [conjOf]
  | e :: f :: es => exact holds_conj

theorem holds_disjOf (es : List Expr) : (disjOf es).Holds b S ↔ ∃ e ∈ es, e.Holds b S := by
  match es with
  | [] => simp [disjOf]
  | [e] => simp [disjOf]
  | e :: f :: es => exact holds_disj

theorem holds_addConjunct (parts : List Expr) (e : Expr) :
    (∀ p ∈ addConjunct parts e, p.Holds b S) ↔ (∀ p ∈ parts, p.Holds b S) ∧ e.Holds b S := by
  have hother : (∀ p ∈ (if e ∈ parts then parts else parts ++ [e]), p.Holds b S) ↔
      (∀ p ∈ parts, p.Holds b S) ∧ e.Holds b S := by
    split
    · next h => exact ⟨fun hp => ⟨hp, hp e h⟩, fun hp => hp.1⟩
    · simp [or_imp, forall_and]
  cases e with
  | top => simp [addConjunct]
  | conj es => simp [addConjunct, holds_conj, or_imp, forall_and]
  | _ => exact hother

theorem holds_addDisjunct (parts : List Expr) (e : Expr) :
    (∃ p ∈ addDisjunct parts e, p.Holds b S) ↔ (∃ p ∈ parts, p.Holds b S) ∨ e.Holds b S := by
  have hother : (∃ p ∈ (if e ∈ parts then parts else parts ++ [e]), p.Holds b S) ↔
      (∃ p ∈ parts, p.Holds b S) ∨ e.Holds b S := by
    split
    · next h => exact ⟨Or.inl, fun hp => hp.elim id fun he => ⟨e, h, he⟩⟩
    · simp [or_and_right, exists_or]
  cases e with
  | bottom => simp [addDisjunct]
  | disj es => simp [addDisjunct, holds_disj, or_and_right, exists_or]
  | _ => exact hother

theorem holds_foldl_addConjunct (es parts : List Expr) :
    (∀ p ∈ es.foldl addConjunct parts, p.Holds b S) ↔
      (∀ p ∈ parts, p.Holds b S) ∧ ∀ e ∈ es, e.Holds b S := by
  induction es generalizing parts with
  | nil => simp
  | cons e es ih => rw [List.foldl_cons, ih, holds_addConjunct, List.forall_mem_cons, and_assoc]

theorem holds_foldl_addDisjunct (es parts : List Expr) :
    (∃ p ∈ es.foldl addDisjunct parts, p.Holds b S) ↔
      (∃ p ∈ parts, p.Holds b S) ∨ ∃ e ∈ es, e.Holds b S := by
  induction es generalizing parts with
  | nil => simp
  | cons e es ih => simp only [List.foldl_cons, ih, holds_addDisjunct, List.mem_cons, exists_eq_or_imp, or_assoc]

theorem holds_conjoin (es : List Expr) : (conjoin es).Holds b S ↔ ∀ e ∈ es, e.Holds b S := by
  rw [conjoin]
  split
  · next h => exact ⟨fun hb => absurd hb not_holds_bottom, fun hes => hes _ h⟩
  · rw [holds_conjOf, holds_foldl_addConjunct]
    simp

theorem holds_disjoin (es : List Expr) : (disjoin es).Holds b S ↔ ∃ e ∈ es, e.Holds b S := by
  rw [disjoin]
  split
  · next h => exact ⟨fun _ => ⟨_, h, holds_top⟩, fun _ => holds_top⟩
  · rw [holds_disjOf, holds_foldl_addDisjunct]
    simp

theorem holds_negate (e : Expr) : (negate e).Holds b S ↔ ¬ e.Holds b S := by
  cases e with
  | top => simp [negate]
  | bottom => simp [negate]
  | neg e => rw [negate, holds_neg, not_not]
  | _ => exact holds_neg

theorem holds_equate (x y : Arg) : (equate x y).Holds b S ↔ x.subst b = y.subst b := by
  have hother : (if x = y then top else equal x y).Holds b S ↔ x.subst b = y.subst b := by
    split
    · next h => simp [h]
    · rw [Holds]
  cases x with
  | slot i => exact hother
  | const c =>
      cases y with
      | slot j => exact hother
      | const d =>
          simp only [equate, Arg.subst, Arg.const.injEq]
          split
          · next h => simp [h]
          · next h => simp [h]

theorem holds_simplify (e : Expr) : e.simplify.Holds b S ↔ e.Holds b S := by
  induction e using Expr.induct with
  | top | bottom => rfl
  | task t => rfl
  | atom a => rfl
  | equal x y => rw [simplify, holds_equate, Holds]
  | neg e ih => rw [simplify, holds_negate, holds_neg, ih]
  | conj es ih =>
      rw [simplify, holds_conjoin, holds_conj, simplifyAll_eq_map, List.forall_mem_map]
      exact forall₂_congr ih
  | disj es ih =>
      rw [simplify, holds_disjoin, holds_disj, simplifyAll_eq_map]
      simpa using exists_congr fun e => and_congr_right (ih e)

/-! ### Known values -/

def Agrees (value : Fact → Option Bool) (S : Set Fact) : Prop :=
  ∀ f v, value f = some v → (f ∈ S ↔ v = true)

theorem holds_settleAtom {value : Fact → Option Bool} (h : Agrees value S) (a : Atom) :
    (settleAtom value a).Holds b S ↔ (atom a).Holds b S := by
  rw [settleAtom]
  cases hv : a.fact?.bind value with
  | none => rfl
  | some v =>
      obtain ⟨f, hf, hv⟩ := Option.bind_eq_some_iff.mp hv
      have hatom : (atom a).Holds b S ↔ f ∈ S := by
        rw [Atom.eq_ofFact hf, Holds]
        simp
      rw [hatom, h f v hv]
      cases v <;> simp

theorem holds_settle {value : Fact → Option Bool} (h : Agrees value S) (e : Expr) :
    (e.settle value).Holds b S ↔ e.Holds b S := by
  induction e using Expr.induct with
  | top | bottom => rfl
  | task t => rfl
  | atom a => exact holds_settleAtom h a
  | equal x y => rfl
  | neg e ih => rw [settle, holds_neg, holds_neg, ih]
  | conj es ih =>
      rw [settle, holds_conj, holds_conj, settleAll_eq_map, List.forall_mem_map]
      exact forall₂_congr ih
  | disj es ih =>
      rw [settle, holds_disj, holds_disj, settleAll_eq_map]
      simpa using exists_congr fun e => and_congr_right (ih e)

theorem holds_assign {value : Fact → Option Bool} (h : Agrees value S) (e : Expr) :
    (e.assign value).Holds b S ↔ e.Holds b S := by
  rw [assign, holds_simplify, holds_settle h]

/-! ### Normal forms -/

theorem holds_nnf (e : Expr) :
    ((e.nnf true).Holds b S ↔ e.Holds b S) ∧ ((e.nnf false).Holds b S ↔ ¬ e.Holds b S) := by
  induction e using Expr.induct with
  | top => simp [nnf]
  | bottom => simp [nnf]
  | task t => simp [nnf, holds_neg]
  | atom a => simp [nnf, holds_neg]
  | equal x y => simp [nnf, holds_neg]
  | neg e ih => simp [nnf, holds_neg, ih.1, ih.2]
  | conj es ih =>
      simp only [nnf, nnfAll_eq_map, if_true, Bool.false_eq_true, if_false, holds_conj, holds_disj,
        List.mem_map, forall_exists_index, and_imp, forall_apply_eq_imp_iff₂,
        exists_exists_and_eq_and, not_forall]
      constructor
      · exact forall₂_congr fun e he => (ih e he).1
      · exact exists_congr fun e => (and_congr_right fun he => (ih e he).2).trans exists_prop.symm
  | disj es ih =>
      simp only [nnf, nnfAll_eq_map, if_true, Bool.false_eq_true, if_false, holds_conj, holds_disj,
        List.mem_map, forall_exists_index, and_imp, forall_apply_eq_imp_iff₂,
        exists_exists_and_eq_and, not_exists, not_and]
      constructor
      · exact exists_congr fun e => and_congr_right fun he => (ih e he).1
      · exact forall₂_congr fun e he => (ih e he).2

theorem mem_clausesAny {es : List Expr} {c : List Expr} :
    c ∈ clausesAny es ↔ ∃ e ∈ es, c ∈ e.clauses := by
  induction es with
  | nil => simp [clausesAny]
  | cons e es ih => simp [clausesAny, ih]

theorem exists_clausesAll_holds (es : List Expr) :
    (∃ c ∈ clausesAll es, ∀ l ∈ c, l.Holds b S) ↔
      ∀ e ∈ es, ∃ c ∈ e.clauses, ∀ l ∈ c, l.Holds b S := by
  induction es with
  | nil => simp [clausesAll]
  | cons e es ih =>
      rw [List.forall_mem_cons, ← ih]
      simp only [clausesAll, List.mem_flatMap, List.mem_map]
      constructor
      · rintro ⟨_, ⟨c, hc, d, hd, rfl⟩, h⟩
        exact ⟨⟨c, hc, fun l hl => h l (List.mem_append_left d hl)⟩,
          ⟨d, hd, fun l hl => h l (List.mem_append_right c hl)⟩⟩
      · rintro ⟨⟨c, hc, hcs⟩, ⟨d, hd, hds⟩⟩
        exact ⟨_, ⟨c, hc, d, hd, rfl⟩, fun l hl => (List.mem_append.mp hl).elim (hcs l) (hds l)⟩

theorem exists_clause_holds (e : Expr) :
    (∃ c ∈ e.clauses, ∀ l ∈ c, l.Holds b S) ↔ e.Holds b S := by
  induction e using Expr.induct with
  | top => simp [clauses]
  | bottom => simp [clauses]
  | task t => simp [clauses]
  | atom a => simp [clauses]
  | equal x y => simp [clauses]
  | neg e => simp [clauses]
  | conj es ih =>
      rw [clauses, exists_clausesAll_holds, holds_conj]
      exact forall₂_congr ih
  | disj es ih =>
      simp only [clauses, mem_clausesAny, holds_disj]
      constructor
      · rintro ⟨c, ⟨e, he, hc⟩, h⟩
        exact ⟨e, he, (ih e he).mp ⟨c, hc, h⟩⟩
      · rintro ⟨e, he, h⟩
        obtain ⟨c, hc, hcs⟩ := (ih e he).mpr h
        exact ⟨c, ⟨e, he, hc⟩, hcs⟩

theorem exists_dnf_holds (e : Expr) : (∃ c ∈ e.dnf, ∀ l ∈ c, l.Holds b S) ↔ e.Holds b S := by
  rw [dnf, exists_clause_holds, holds_simplify, (holds_nnf e).1]

theorem exists_variant_holds (e : Expr) : (∃ v ∈ e.variants, v.Holds b S) ↔ e.Holds b S := by
  rw [← exists_dnf_holds]
  simp only [variants, List.mem_filter, List.mem_map, bne_iff_ne]
  constructor
  · rintro ⟨_, ⟨⟨c, hc, rfl⟩, _⟩, h⟩
    exact ⟨c, hc, holds_conj.mp ((holds_simplify _).mp h)⟩
  · rintro ⟨c, hc, h⟩
    have hv : ((conj c).simplify).Holds b S := (holds_simplify _).mpr (holds_conj.mpr h)
    exact ⟨_, ⟨⟨c, hc, rfl⟩, fun hb => not_holds_bottom (hb ▸ hv)⟩, hv⟩

end Expr

end HtnPlanner
