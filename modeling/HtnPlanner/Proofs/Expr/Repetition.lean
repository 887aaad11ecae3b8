import HtnPlanner.Proofs.Expr.Literals
import HtnPlanner.Proofs.Expr.Variants
import Mathlib.Algebra.Order.BigOperators.Group.List
import Mathlib.Algebra.Order.Ring.Nat
import Mathlib.Data.List.Nodup

/-!
What has been simplified is simplified further exactly if a member is repeated in one of its conjunctions or
disjunctions, and then it gets smaller. Members come to be repeated where those of a nested conjunction or disjunction
are taken over, so never among the literals of a clause.
-/

namespace HtnPlanner.Expr

variable {e : Expr} {es parts : List Expr} {c : Connective}

def DistinctAt : Expr → Prop
  | conj es | disj es => es.Nodup
  | _ => True

/-- No conjunction or disjunction in it has the same member twice. -/
def Distinct (e : Expr) : Prop := e.Everywhere DistinctAt

theorem distinct_of : (c.of es).Distinct ↔ es.Nodup ∧ ∀ e ∈ es, e.Distinct := by
  have hat : (c.of es).DistinctAt ↔ es.Nodup := by cases c <;> rfl
  rw [Distinct, c.everywhere_of, hat]
  rfl

theorem distinct_neg : (neg e).Distinct ↔ e.Distinct := everywhere_neg.trans (and_iff_right trivial)

theorem IsLiteral.distinct (h : e.IsLiteral) : e.Distinct := by
  match e, h with
  | atom _, _ | equal _ _, _ => exact List.forall_mem_singleton.mpr trivial
  | neg (atom _), _ | neg (equal _ _), _ => exact distinct_neg.mpr (List.forall_mem_singleton.mpr trivial)

theorem IsSettled.distinct (h : e.IsSettled) : e.Distinct := by
  rcases h with rfl | rfl | h
  · exact List.forall_mem_singleton.mpr trivial
  · exact List.forall_mem_singleton.mpr trivial
  · exact h.distinct

/-! ### Nothing left to do -/

theorem Connective.foldl_add_eq_append (hsingle : ∀ e ∈ es, c.Single e) (h : (parts ++ es).Nodup) :
    es.foldl c.add parts = parts ++ es := by
  induction es generalizing parts with
  | nil => exact (List.append_nil parts).symm
  | cons e es ih =>
      have hnew : e ∉ parts := fun he => (List.nodup_append.mp h).2.2 e he e List.mem_cons_self rfl
      have hsingle' : ∀ f ∈ es, c.Single f := fun f hf => hsingle f (List.mem_cons_of_mem e hf)
      rw [List.append_cons] at h ⊢
      rw [List.foldl_cons, (hsingle e List.mem_cons_self).add, if_neg hnew, ih hsingle' h]

theorem Folded.join_eq (hf : (c.of es).Folded) (h : es.Nodup) : c.join es = c.of es := by
  have hparts := Connective.foldl_add_eq_append (fun e he => hf.single he) (List.nil_append es ▸ h)
  rw [Connective.join, if_neg hf.zero_not_mem, hparts, List.nil_append]
  exact Connective.gather_of_two_le (folded_of.mp hf).1.1

theorem equate_eq_equal {x y : Arg} (h : (equal x y).Folded) : equate x y = equal x y := by
  obtain ⟨hne, hconst⟩ : x ≠ y ∧ (x.const? = none ∨ y.const? = none) := h.self
  unfold equate
  split
  · exact absurd hconst (by simp [Arg.const?])
  · exact if_neg hne

theorem negate_eq_neg (h : (neg e).Folded) : negate e = neg e := by
  obtain ⟨hneg, he⟩ := everywhere_neg.mp h
  cases e with
  | top => exact (Folded.ne_unit he .all rfl).elim
  | bottom => exact (Folded.ne_unit he .any rfl).elim
  | neg f => exact absurd rfl (hneg f)
  | _ => rfl

theorem map_simplify_eq_self (h : ∀ e ∈ es, e.simplify = e) : es.map simplify = es :=
  (List.map_congr_left h).trans (List.map_id' es)

theorem simplify_eq_self (hf : e.Folded) (hd : e.Distinct) : e.simplify = e := by
  induction e using induct_of with
  | top | bottom => rfl
  | atom a => rfl
  | task t => rfl
  | equal x y => exact equate_eq_equal hf
  | neg e ih => rw [simplify, ih (everywhere_neg.mp hf).2 (distinct_neg.mp hd), negate_eq_neg hf]
  | of c es ih =>
      obtain ⟨hnodup, hdistinct⟩ := distinct_of.mp hd
      have hmembers := fun e he => ih e he ((folded_of.mp hf).2 e he) (hdistinct e he)
      rw [c.simplify_of, map_simplify_eq_self hmembers, hf.join_eq hnodup]

/-! ### Sizes -/

def size (e : Expr) : Nat := e.nodes.length

theorem size_pos (e : Expr) : 0 < e.size := List.length_pos_of_mem e.mem_nodes_self

theorem size_of : (c.of es).size = (es.map size).sum + 1 := by
  rw [size, c.nodes_of, List.length_cons, List.length_flatMap]
  rfl

theorem size_neg : (neg e).size = e.size + 1 := List.length_cons

theorem size_negate_le (e : Expr) : (negate e).size ≤ e.size + 1 := by
  cases e with
  | top | bottom => decide
  | neg e => rw [negate, size_neg]; omega
  | _ => exact size_neg.le

namespace Connective

theorem size_unit : c.unit.size = 1 := by
  cases c <;> rfl

theorem size_zero : c.zero.size = 1 := by
  cases c <;> rfl

theorem size_gather_le (c : Connective) (es : List Expr) : (c.gather es).size ≤ (es.map size).sum + 1 := by
  match es with
  | [] => exact size_unit.le
  | [e] => simp [gather]
  | _ :: _ :: _ => exact size_of.le

theorem sum_foldl_add_le (c : Connective) (es parts : List Expr) :
    ((es.foldl c.add parts).map size).sum ≤ (parts.map size).sum + (es.map size).sum := by
  induction es generalizing parts with
  | nil => rfl
  | cons e es ih =>
      have hadd : ((c.add parts e).map size).sum ≤ (parts.map size).sum + e.size := by
        rcases c.member_cases e with rfl | ⟨fs, rfl⟩ | he
        · simp
        · simp [size_of]
        · rw [he.add]
          split <;> simp
      have hrest := ih (c.add parts e)
      rw [List.foldl_cons, List.map_cons, List.sum_cons]
      omega

/-- A member that is there already is lost. -/
theorem sum_foldl_add_lt (hsingle : ∀ e ∈ es, c.Single e) (hparts : parts.Nodup) (h : ¬ (parts ++ es).Nodup) :
    ((es.foldl c.add parts).map size).sum < (parts.map size).sum + (es.map size).sum := by
  induction es generalizing parts with
  | nil => exact absurd (by simpa using hparts) h
  | cons e es ih =>
      rw [List.foldl_cons, (hsingle e List.mem_cons_self).add, List.map_cons, List.sum_cons]
      split
      · have hrest := sum_foldl_add_le c es parts
        have hpos := size_pos e
        omega
      · next hnew =>
          have hlonger : (parts ++ [e]).Nodup := List.concat_eq_append ▸ hparts.concat hnew
          have hrest := ih (fun f hf => hsingle f (List.mem_cons_of_mem e hf)) hlonger (List.append_cons parts e es ▸ h)
          simp only [List.map_append, List.map_cons, List.map_nil, List.sum_append, List.sum_cons, List.sum_nil] at hrest
          omega

theorem size_join_le (c : Connective) (es : List Expr) : (c.join es).size ≤ (es.map size).sum + 1 := by
  rw [join]
  split
  · rw [size_zero]
    omega
  · have hgather := size_gather_le c (es.foldl c.add [])
    have hfoldl := sum_foldl_add_le c es []
    simp only [List.map_nil, List.sum_nil] at hfoldl
    omega

end Connective

theorem size_simplify_le (e : Expr) : e.simplify.size ≤ e.size := by
  induction e using induct_of with
  | top | bottom => rfl
  | atom a => rfl
  | task t => rfl
  | equal x y =>
      unfold simplify equate
      split <;> split <;> rfl
  | neg e ih =>
      have hnegate := size_negate_le e.simplify
      rw [simplify, size_neg]
      omega
  | of c es ih =>
      have hmembers : ((es.map simplify).map size).sum ≤ (es.map size).sum := by
        rw [List.map_map]
        exact List.sum_le_sum ih
      have hjoin := c.size_join_le (es.map simplify)
      rw [c.simplify_of, size_of]
      omega

theorem Folded.size_join_lt (hf : (c.of es).Folded) (h : ¬ es.Nodup) : (c.join es).size < (c.of es).size := by
  have hgather := c.size_gather_le (es.foldl c.add [])
  have hlost := Connective.sum_foldl_add_lt (fun e he => hf.single he) List.nodup_nil (List.nil_append es ▸ h)
  simp only [List.map_nil, List.sum_nil] at hlost
  rw [Connective.join, if_neg hf.zero_not_mem, size_of]
  omega

/-- Either a member gets smaller or all of them stay, and then one that is repeated is lost. -/
theorem Folded.size_simplify_lt (hf : e.Folded) (h : ¬ e.Distinct) : e.simplify.size < e.size := by
  induction e using induct_of with
  | top | bottom => exact hf.self.elim
  | atom a => exact (h (IsLiteral.distinct trivial)).elim
  | task t => exact (h (List.forall_mem_singleton.mpr trivial)).elim
  | equal x y => exact (h (IsLiteral.distinct trivial)).elim
  | neg e ih =>
      have hlt := ih (everywhere_neg.mp hf).2 (distinct_neg.not.mp h)
      have hnegate := size_negate_le e.simplify
      rw [simplify, size_neg]
      omega
  | of c es ih =>
      have hmembers := (folded_of.mp hf).2
      rw [c.simplify_of]
      by_cases hall : ∀ e ∈ es, e.Distinct
      · rw [map_simplify_eq_self fun e he => simplify_eq_self (hmembers e he) (hall e he)]
        exact hf.size_join_lt fun hnodup => h (distinct_of.mpr ⟨hnodup, hall⟩)
      · obtain ⟨e, he, hrepeated⟩ : ∃ e ∈ es, ¬ e.Distinct := by simpa using hall
        have hsum : ((es.map simplify).map size).sum < (es.map size).sum := by
          rw [List.map_map]
          exact List.sum_lt_sum _ _ (fun e _ => size_simplify_le e) ⟨e, he, ih e he (hmembers e he) hrepeated⟩
        have hjoin := c.size_join_le (es.map simplify)
        rw [size_of]
        omega

theorem Reduced.size_simplify_lt (h : e.Reduced) (hd : ¬ e.Distinct) : e.simplify.size < e.size := by
  rcases h with rfl | rfl | h
  · exact (hd (IsSettled.distinct (Or.inl rfl))).elim
  · exact (hd (IsSettled.distinct (Or.inr (Or.inl rfl)))).elim
  · exact h.size_simplify_lt hd

theorem Reduced.simplify_eq_iff (h : e.Reduced) : e.simplify = e ↔ e.Distinct := by
  refine ⟨fun heq => ?_, fun hd => ?_⟩
  · by_contra hrepeated
    exact (h.size_simplify_lt hrepeated).ne (congrArg size heq)
  · rcases h with rfl | rfl | h
    · rfl
    · rfl
    · exact simplify_eq_self h hd

/-- Each round that changes something leaves less. -/
theorem Reduced.distinct_iterate {n : Nat} (h : e.Reduced) (hn : e.size ≤ n) : (simplify^[n] e).Distinct := by
  induction n generalizing e with
  | zero => exact absurd (size_pos e) (Nat.not_lt.mpr hn)
  | succ n ih =>
      by_cases hd : e.Distinct
      · rwa [Function.iterate_fixed (h.simplify_eq_iff.mpr hd)]
      · rw [Function.iterate_succ_apply]
        exact ih (reduced_simplify e) (Nat.lt_succ_iff.mp ((h.size_simplify_lt hd).trans_le hn))

/-! ### Values that are there already -/

theorem settle_eq_self {value : Fact → Option Bool} (h : e.Everywhere (Open value)) : e.settle value = e := by
  induction e using induct_of with
  | top | bottom => rfl
  | atom a =>
      have hnone : a.fact?.bind value = none := Option.bind_eq_none_iff.mpr fun f hf => h.self a f rfl hf
      rw [settle, settleAtom, hnone]
  | task t => rfl
  | equal x y => rfl
  | neg e ih => exact congrArg neg (ih (everywhere_neg.mp h).2)
  | of c es ih =>
      rw [c.settle_of]
      exact congrArg c.of ((List.map_congr_left fun e he => ih e he ((c.everywhere_of.mp h).2 e he)).trans
        (List.map_id' es))

/-! ### Nothing taken over -/

theorem Connective.nodup_foldl_add (hflat : ∀ fs, c.of fs ∉ es) (h : parts.Nodup) : (es.foldl c.add parts).Nodup := by
  induction es generalizing parts with
  | nil => exact h
  | cons e es ih =>
      refine ih (fun fs hfs => hflat fs (List.mem_cons_of_mem e hfs)) ?_
      rcases c.member_cases e with rfl | ⟨fs, rfl⟩ | he
      · rwa [c.add_unit]
      · exact absurd List.mem_cons_self (hflat fs)
      · rw [he.add]
        split
        · exact h
        · next hnew => exact List.concat_eq_append ▸ h.concat hnew

theorem Connective.distinct_join (hflat : ∀ fs, c.of fs ∉ es) (h : ∀ e ∈ es, e.Distinct) : (c.join es).Distinct := by
  have hnodup : (es.foldl c.add []).Nodup := nodup_foldl_add hflat List.nodup_nil
  refine join_induction (fun e he _ _ => h e he) (fun fs hfs => absurd hfs (hflat fs)) ?_ ?_ (fun _ hp => hp)
    fun _ hps => distinct_of.mpr ⟨hnodup, hps⟩
  · exact c.everywhere_zero.mpr (by cases c <;> trivial)
  · exact c.everywhere_unit.mpr (by cases c <;> trivial)

def FlatAt : Expr → Prop
  | conj es => ∀ e ∈ es, ∀ fs, e.simplify ≠ conj fs
  | disj es => ∀ e ∈ es, ∀ fs, e.simplify ≠ disj fs
  | _ => True

/-- No member of a conjunction is simplified to a conjunction, and none of a disjunction to a disjunction. -/
def Flat (e : Expr) : Prop := e.Everywhere FlatAt

theorem flat_of : (c.of es).Flat ↔ (∀ e ∈ es, ∀ fs, e.simplify ≠ c.of fs) ∧ ∀ e ∈ es, e.Flat := by
  have hat : (c.of es).FlatAt ↔ ∀ e ∈ es, ∀ fs, e.simplify ≠ c.of fs := by cases c <;> rfl
  rw [Flat, c.everywhere_of, hat]
  rfl

theorem Flat.distinct_simplify (h : e.Flat) : e.simplify.Distinct := by
  induction e using induct_of with
  | top | bottom => exact List.forall_mem_singleton.mpr trivial
  | atom a => exact List.forall_mem_singleton.mpr trivial
  | task t => exact List.forall_mem_singleton.mpr trivial
  | equal x y => exact (isSettled_equate x y).distinct
  | neg e ih => exact (ih (everywhere_neg.mp h).2).negate ⟨trivial, trivial⟩ fun _ => trivial
  | of c es ih =>
      obtain ⟨hflat, hmembers⟩ := flat_of.mp h
      rw [c.simplify_of]
      refine Connective.distinct_join (fun fs hfs => ?_) (List.forall_mem_map.mpr fun e he => ih e he (hmembers e he))
      obtain ⟨e, he, heq⟩ := List.mem_map.mp hfs
      exact hflat e he fs heq

/-! ### Clauses -/

theorem distinct_simplify_conj (h : ∀ e ∈ es, e.simplify.IsSettled) : (conj es).simplify.Distinct := by
  have hmembers : ∀ e ∈ es.map simplify, e.IsSettled := List.forall_mem_map.mpr h
  rw [simplify_conj]
  exact Connective.distinct_join (fun fs hfs => not_isSettled_of .all fs (hmembers _ hfs))
    fun e he => (hmembers e he).distinct

theorem IsClause.distinct_assign (h : e.IsClause) (value : Fact → Option Bool) : (e.assign value).Distinct := by
  cases e with
  | top => exact IsSettled.distinct (Or.inl rfl)
  | conj ls =>
      rw [Expr.assign, settle, settleAll_eq_map]
      exact distinct_simplify_conj (List.forall_mem_map.mpr fun l hl => (h l hl).assign value)
  | _ => exact ((h _ List.mem_cons_self).assign value).distinct

theorem Distinct.nodup_literals (h : e.Distinct) (hread : e.literals? = some e.literals) : e.literals.Nodup := by
  have hconjuncts : e.conjuncts.Nodup := by
    cases e with
    | top => exact List.nodup_nil
    | conj es => exact (distinct_of (c := .all).mp h).1
    | _ => exact List.nodup_singleton _
  rw [conjuncts_eq_map_ofLiteral hread] at hconjuncts
  exact hconjuncts.of_map

/-- The literals say how a clause is written. -/
theorem Reduced.eq_of_literals_eq {e' : Expr} (h : e.Reduced) (h' : e'.Reduced) (hread : e.literals? = some e.literals)
    (hread' : e'.literals? = some e'.literals) (heq : e.literals = e'.literals) : e = e' := by
  rw [← h.conjOf_conjuncts, ← h'.conjOf_conjuncts, conjuncts_eq_map_ofLiteral hread, heq,
    conjuncts_eq_map_ofLiteral hread']

theorem TaskFree.distinct_variant (h : e.TaskFree) (hv : v ∈ e.variants) : v.Distinct ∧ v.simplify = v := by
  simp only [variants, List.mem_filter, List.mem_map] at hv
  obtain ⟨⟨c, hc, rfl⟩, -⟩ := hv
  have hdistinct : (conj c).simplify.Distinct :=
    distinct_simplify_conj fun l hl => (h.isLiteral_of_mem_dnf hc l hl).simplify
  exact ⟨hdistinct, (reduced_simplify _).simplify_eq_iff.mpr hdistinct⟩

theorem Reduced.assign_eq_iff {value : Fact → Option Bool} (h : e.Reduced) (hopen : e.Everywhere (Open value)) :
    e.assign value = e ↔ e.Distinct := by
  rw [assign, settle_eq_self hopen, h.simplify_eq_iff]

/-- To simplify once more, or to replace atoms by values when none of those left has one, changes something if and only
if a member is repeated, and makes it smaller. After as many rounds as the expression has nodes no member is repeated.
None is from the start if no members are taken over, nor in the instances of variants. -/
theorem simplify_twice (e : Expr) :
    (e.simplify.simplify = e.simplify ↔ e.simplify.Distinct) ∧
      (¬ e.simplify.Distinct → e.simplify.simplify.size < e.simplify.size) ∧
      (∀ n > e.size, (simplify^[n] e).Distinct ∧ (simplify^[n] e).simplify = simplify^[n] e) ∧
      (∀ value, e.simplify.Everywhere (Open value) →
        (e.simplify.assign value = e.simplify ↔ e.simplify.Distinct)) ∧
      (e.Flat → e.simplify.Distinct) ∧
      (e.TaskFree → ∀ v ∈ e.variants, v.Distinct ∧ v.simplify = v ∧ ∀ b value,
        ((v.subst b).assign value).Distinct ∧
          ((v.subst b).assign value).assign value = (v.subst b).assign value) := by
  have hreduced := reduced_simplify e
  refine ⟨hreduced.simplify_eq_iff, hreduced.size_simplify_lt, fun n hn => ?_,
    fun value => hreduced.assign_eq_iff, Flat.distinct_simplify, fun h v hv => ?_⟩
  · obtain ⟨m, rfl⟩ := Nat.exists_eq_add_of_lt hn
    have hrest : (simplify^[e.size + m + 1] e).Distinct :=
      hreduced.distinct_iterate ((size_simplify_le e).trans (Nat.le_add_right _ m))
    have hlast : (simplify^[e.size + m + 1] e).Reduced := by
      rw [Function.iterate_succ_apply']
      exact reduced_simplify _
    exact ⟨hrest, hlast.simplify_eq_iff.mpr hrest⟩
  · obtain ⟨hdistinct, hfixed⟩ := h.distinct_variant hv
    refine ⟨hdistinct, hfixed, fun b value => ?_⟩
    have hclause : (v.subst b).IsClause := (Over.of_mem_variants h hv).1.subst b
    have hassigned := hclause.distinct_assign value
    have hopen : ((v.subst b).assign value).Everywhere (Open value) :=
      (everywhere_settle value _).simplify fun _ => open_of_ne_atom
    exact ⟨hassigned, (reduced_simplify _).assign_eq_iff hopen |>.mpr hassigned⟩

/-- What is repeated goes in the second round. In the one disjunction nothing is taken over, and the one variant has
nothing repeated. -/
theorem simplify_twice_nested :
    let p := atom ⟨0, []⟩
    let q := atom ⟨1, []⟩
    let e := conj [p, conj [p, q]]
    ¬ e.simplify.Distinct ∧ e.simplify.simplify.size < e.simplify.size ∧ (simplify^[6] e).Distinct ∧
      e.simplify.assign (fun _ => none) ≠ e.simplify ∧ (disj [conj [p, q], p]).Flat ∧
      (disj [conj [p, q], p]).simplify.Distinct ∧ e.TaskFree ∧ e.variants = [conj [p, q]] ∧
      (((conj [p, q]).subst []).assign fun _ => none).Distinct := by
  intro p q e
  obtain ⟨hagain, hsize, hrounds, hassign, -, hvariants⟩ := simplify_twice e
  have hrepeated : ¬ e.simplify.Distinct := fun h => absurd (hagain.mpr h) (by decide)
  have hopen : e.simplify.Everywhere (Open fun _ => none) := fun _ _ _ _ _ _ => rfl
  have hflat : (disj [conj [p, q], p]).Flat := by
    simp [p, q, Flat, Everywhere, nodes, FlatAt, simplify, conjoin, addConjunct, conjOf]
  have htaskFree : e.TaskFree := by simp [e, p, q, TaskFree, Over]
  have hvariant : e.variants = [conj [p, q]] := by decide
  obtain ⟨-, -, hinstances⟩ := hvariants htaskFree (conj [p, q]) (by rw [hvariant]; exact List.mem_cons_self)
  exact ⟨hrepeated, hsize hrepeated, (hrounds 6 (by decide)).1, fun h => hrepeated ((hassign _ hopen).mp h), hflat,
    (simplify_twice (disj [conj [p, q], p])).2.2.2.2.1 hflat, htaskFree, hvariant, (hinstances [] _).1⟩

/-- Members that are taken over are not compared with those that are there. -/
theorem simplify_repeats_member :
    let p := atom ⟨0, []⟩
    let q := atom ⟨1, []⟩
    (conj [p, conj [p, q]]).simplify = conj [p, p, q] ∧ (conj [p, p, q]).simplify = conj [p, q] ∧
      ¬ ∀ e : Expr, e.simplify.simplify = e.simplify := by
  intro p q
  have hfirst : (conj [p, conj [p, q]]).simplify = conj [p, p, q] := by decide
  have hsecond : (conj [p, p, q]).simplify = conj [p, q] := by decide
  refine ⟨hfirst, hsecond, fun h => ?_⟩
  have htwice := h (conj [p, conj [p, q]])
  rw [hfirst, hsecond] at htwice
  exact absurd htwice (by decide)

end HtnPlanner.Expr
