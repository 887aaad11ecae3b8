import HtnPlanner.Proofs.Expr.Clauses
import HtnPlanner.Proofs.Expr.Folding

/-!
The variants of a condition are lists of literals and together they say what it says. It does not matter whether
negations are pushed inwards one at a time, or whether products of clauses are formed member by member.
-/

namespace HtnPlanner.Expr

variable {e v : Expr} {es : List Expr}

/-- No task is mentioned. -/
def TaskFree (e : Expr) : Prop := e.Over (fun _ => True) fun _ _ => True

/-! ### One negation and one member at a time -/

/-- A negated conjunction becomes the disjunction of its members negated, from which negations are pushed inwards in
turn. -/
def pushNegations : Expr → Expr
  | neg top => bottom
  | neg bottom => top
  | neg (neg e) => pushNegations e
  | neg (conj es) => disj (es.map fun e => pushNegations (neg e))
  | neg (disj es) => conj (es.map fun e => pushNegations (neg e))
  | conj es => conj (es.map pushNegations)
  | disj es => disj (es.map pushNegations)
  | e => e

theorem pushNegations_eq (e : Expr) : e.pushNegations = e.nnf true ∧ (neg e).pushNegations = e.nnf false := by
  induction e using Expr.induct with
  | top | bottom => simp [pushNegations, nnf]
  | atom a => simp [pushNegations, nnf]
  | task t => simp [pushNegations, nnf]
  | equal x y => simp [pushNegations, nnf]
  | neg e ih => simp [pushNegations, nnf, ih]
  | conj es ih =>
      simp only [pushNegations, nnf, nnfAll_eq_map, if_true, Bool.false_eq_true, if_false]
      exact ⟨congrArg conj (List.map_congr_left fun e he => (ih e he).1),
        congrArg disj (List.map_congr_left fun e he => (ih e he).2)⟩
  | disj es ih =>
      simp only [pushNegations, nnf, nnfAll_eq_map, if_true, Bool.false_eq_true, if_false]
      exact ⟨congrArg disj (List.map_congr_left fun e he => (ih e he).1),
        congrArg conj (List.map_congr_left fun e he => (ih e he).2)⟩

/-- Every clause of one list followed by every clause of the other. -/
def product (cs ds : List (List Expr)) : List (List Expr) := cs.flatMap fun c => ds.map (c ++ ·)

/-- The clauses of a conjunction are those of its first members, multiplied by those of the next one. -/
def products : Expr → List (List Expr)
  | top => [[]]
  | bottom => []
  | disj es => es.flatMap products
  | conj es => es.foldl (fun cs e => product cs (products e)) [[]]
  | e => [[e]]

theorem product_assoc (bs cs ds : List (List Expr)) : product (product bs cs) ds = product bs (product cs ds) := by
  simp [product, List.flatMap_assoc, List.flatMap_map, List.map_flatMap, Function.comp_def]

theorem foldl_product_eq (h : ∀ e ∈ es, e.products = e.clauses) (cs : List (List Expr)) :
    es.foldl (fun cs e => product cs e.products) cs = product cs (clausesAll es) := by
  induction es generalizing cs with
  | nil => simp [product, clausesAll]
  | cons e es ih =>
      obtain ⟨he, hes⟩ := List.forall_mem_cons.mp h
      rw [List.foldl_cons, ih hes, he, product_assoc]
      rfl

theorem clausesAny_eq_flatMap (es : List Expr) : clausesAny es = es.flatMap clauses := by
  induction es with
  | nil => rfl
  | cons e es ih => simp [clausesAny, ih]

theorem products_eq_clauses (e : Expr) : e.products = e.clauses := by
  induction e using Expr.induct with
  | top | bottom => simp [products, clauses]
  | atom a => simp [products, clauses]
  | task t => simp [products, clauses]
  | equal x y => simp [products, clauses]
  | neg e => simp [products, clauses]
  | conj es ih =>
      rw [products, clauses, foldl_product_eq ih]
      simp [product]
  | disj es ih =>
      have hmembers : es.flatMap products = es.flatMap clauses := by
        rw [List.flatMap_def, List.flatMap_def, List.map_congr_left ih]
      rw [products, clauses, hmembers, clausesAny_eq_flatMap]

/-! ### Slots -/

/-- What covers the slots of a condition covers those of its atoms and equalities. -/
theorem TaskFree.over_slots {n : Nat} (h : e.TaskFree) :
    (e.Over (fun a => ∀ i ∈ (atom a).slots, i < n) fun x y => ∀ i ∈ (equal x y).slots, i < n) ↔
      ∀ i ∈ e.slots, i < n := by
  induction e using Expr.induct with
  | top | bottom => exact iff_of_true trivial fun i hi => absurd hi List.not_mem_nil
  | task t => exact absurd h id
  | atom a => exact Iff.rfl
  | equal x y => exact Iff.rfl
  | neg e ih => exact ih h
  | conj es ih =>
      simp only [over_conj, slots, slotsAll_eq_flatMap, List.forall_mem_flatMap]
      exact forall₂_congr fun e he => ih e he (over_conj.mp h e he)
  | disj es ih =>
      simp only [over_disj, slots, slotsAll_eq_flatMap, List.forall_mem_flatMap]
      exact forall₂_congr fun e he => ih e he (over_disj.mp h e he)

theorem subst?_eq_some {b : List Nat} (h : ∀ i ∈ e.slots, i < b.length) : e.subst? b = some (e.subst b) :=
  if_pos (by simpa using h)

theorem TaskFree.subst?_variant {b : List Nat} (h : e.TaskFree) (hslots : ∀ i ∈ e.slots, i < b.length)
    (hv : v ∈ e.variants) : v.subst? b = some (v.subst b) := by
  have hfree : v.TaskFree := (Over.of_mem_variants h hv).2
  exact subst?_eq_some (hfree.over_slots.mp (Over.of_mem_variants (h.over_slots.mpr hslots) hv).2)

/-! ### The shape of variants -/

theorem TaskFree.isLiteral_of_mem_dnf {c : List Expr} (h : e.TaskFree) (hc : c ∈ e.dnf) : ∀ l ∈ c, l.IsLiteral := by
  have hequate (x y : Arg) (_ : True) : (equate x y).TaskFree := over_equate trivial
  exact fun l hl => (Over.of_mem_dnf h hequate hc hl).1

theorem TaskFree.variant_cases (h : e.TaskFree) (hv : v ∈ e.variants) :
    v = top ∨ v.IsLiteral ∨ ∃ ls, v = conj ls ∧ 2 ≤ ls.length ∧ ∀ l ∈ ls, l.IsLiteral := by
  have hclause : v.IsClause := (Over.of_mem_variants h hv).1
  have hreduced : v.Reduced := by
    simp only [variants, List.mem_filter, List.mem_map] at hv
    obtain ⟨⟨c, -, rfl⟩, -⟩ := hv
    exact reduced_simplify _
  cases v with
  | top => exact Or.inl rfl
  | conj ls =>
      have hfolded : (Connective.all.of ls).Folded := Reduced.folded hreduced
      have htwo : 2 ≤ ls.length := (folded_of.mp hfolded).1.1
      exact Or.inr (Or.inr ⟨ls, rfl, htwo, hclause⟩)
  | _ => exact Or.inr (Or.inl (hclause _ List.mem_cons_self))

/-- The variants of a condition without tasks are literals, or conjunctions of two and more, or say nothing. An
instance of the condition is true if and only if that of a variant is. Its disjunctive normal form means the same, and
is got as well by pushing negations inwards one at a time and multiplying clauses member by member. -/
theorem variants_keep_meaning (h : e.TaskFree) :
    (∀ b, (∀ i ∈ e.slots, i < b.length) → e.subst? b = some (e.subst b) ∧
        (∀ v ∈ e.variants, v.subst? b = some (v.subst b)) ∧
        ∀ S, (e.subst b).Holds [] S ↔ ∃ v ∈ e.variants, (v.subst b).Holds [] S) ∧
      (∀ v ∈ e.variants, v = top ∨ v.IsLiteral ∨ ∃ ls, v = conj ls ∧ 2 ≤ ls.length ∧ ∀ l ∈ ls, l.IsLiteral) ∧
      e.pushNegations = e.nnf true ∧ e.pushNegations.simplify.products = e.dnf ∧
      (e.nnf true).IsNnf ∧ (∀ c ∈ e.dnf, ∀ l ∈ c, l.IsLiteral) ∧
      ∀ b S, ((e.nnf true).Holds b S ↔ e.Holds b S) ∧ ((disj (e.dnf.map conj)).Holds b S ↔ e.Holds b S) := by
  have hpush := (pushNegations_eq e).1
  refine ⟨fun b hb => ⟨subst?_eq_some hb, fun v hv => h.subst?_variant hb hv, fun S => ?_⟩,
    fun v hv => h.variant_cases hv, hpush, by rw [hpush, products_eq_clauses, dnf], Over.isNnf_nnf h true,
    fun c hc => h.isLiteral_of_mem_dnf hc, fun b S => ⟨(holds_nnf e).1, ?_⟩⟩
  · simp only [holds_subst, exists_variant_holds]
  · rw [← exists_dnf_holds e, holds_disj]
    simp [holds_conj]

/-- A lamp may be taken unless it is on and the one in hand. -/
def takeable : Expr := conj [atom ⟨0, []⟩, neg (conj [atom ⟨1, [.slot 0]⟩, equal (.slot 0) (.slot 1)])]

/-- The lamp is on and another one is in hand. -/
theorem variants_keep_meaning_takeable :
    takeable.TaskFree ∧ (∀ i ∈ takeable.slots, i < [3, 4].length) ∧
      takeable.variants = [conj [atom ⟨0, []⟩, neg (atom ⟨1, [.slot 0]⟩)],
        conj [atom ⟨0, []⟩, neg (equal (.slot 0) (.slot 1))]] ∧
      (takeable.subst [3, 4]).Holds [] {⟨0, []⟩, ⟨1, [3]⟩} := by
  have hfree : takeable.TaskFree := by simp [TaskFree, takeable, Over]
  have hslots : ∀ i ∈ takeable.slots, i < [3, 4].length := by decide
  have hvariants : takeable.variants = [conj [atom ⟨0, []⟩, neg (atom ⟨1, [.slot 0]⟩)],
      conj [atom ⟨0, []⟩, neg (equal (.slot 0) (.slot 1))]] := by decide
  refine ⟨hfree, hslots, hvariants, (((variants_keep_meaning hfree).1 [3, 4] hslots).2.2 _).mpr ?_⟩
  rw [hvariants]
  refine ⟨_, List.mem_cons_of_mem _ List.mem_cons_self, holds_subst.mpr (holds_conj.mpr ?_)⟩
  refine List.forall_mem_cons.mpr ⟨⟨⟨0, []⟩, Or.inl rfl, rfl⟩, List.forall_mem_singleton.mpr ?_⟩
  exact holds_neg.mpr (by simp [Holds, Arg.subst])

end HtnPlanner.Expr
