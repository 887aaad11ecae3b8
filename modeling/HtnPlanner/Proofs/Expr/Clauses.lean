import HtnPlanner.Proofs.Expr.Shape

/-!
The clauses of the disjunctive normal form hold literals only. An instance of a variant is a
conjunction of facts and negated facts, and its meaning is that of its list of literals.
-/

namespace HtnPlanner.Expr

variable {A : Atom → Prop} {E E' : Arg → Arg → Prop}

def IsLiteral : Expr → Prop
  | atom _ | equal _ _ | neg (atom _) | neg (equal _ _) => True
  | _ => False

mutual

/-- Negations stand on atoms and equalities only, and there are no tasks. -/
def IsNnf : Expr → Prop
  | top | bottom | atom _ | equal _ _ => True
  | neg e => IsLiteral (neg e)
  | conj es => AllNnf es
  | disj es => AllNnf es
  | task _ => False

def AllNnf : List Expr → Prop
  | [] => True
  | e :: es => IsNnf e ∧ AllNnf es

end

@[simp] theorem allNnf_iff {es : List Expr} : AllNnf es ↔ ∀ e ∈ es, e.IsNnf := by
  induction es with
  | nil => simp [AllNnf]
  | cons e es ih => simp [AllNnf, ih]

theorem isNnf_conj {es : List Expr} : (conj es).IsNnf ↔ ∀ e ∈ es, e.IsNnf := by
  rw [IsNnf, allNnf_iff]

theorem isNnf_disj {es : List Expr} : (disj es).IsNnf ↔ ∀ e ∈ es, e.IsNnf := by
  rw [IsNnf, allNnf_iff]

theorem IsLiteral.isNnf {e : Expr} (h : e.IsLiteral) : e.IsNnf := by
  cases e with
  | atom a | equal x y => trivial
  | neg e => exact h
  | _ => exact absurd h id

theorem Over.isNnf_nnf {e : Expr} (h : e.Over A E) (positive : Bool) : (e.nnf positive).IsNnf := by
  induction e using Expr.induct generalizing positive with
  | top | bottom => cases positive <;> trivial
  | task t => exact absurd h id
  | atom a => cases positive <;> trivial
  | equal x y => cases positive <;> trivial
  | neg e ih => exact ih h _
  | conj es ih =>
      have hes : ∀ e ∈ nnfAll positive es, e.IsNnf := by
        rw [nnfAll_eq_map, List.forall_mem_map]
        exact fun e he => ih e he (over_conj.mp h e he) positive
      cases positive with
      | true => exact isNnf_conj.mpr hes
      | false => exact isNnf_disj.mpr hes
  | disj es ih =>
      have hes : ∀ e ∈ nnfAll positive es, e.IsNnf := by
        rw [nnfAll_eq_map, List.forall_mem_map]
        exact fun e he => ih e he (over_disj.mp h e he) positive
      cases positive with
      | true => exact isNnf_disj.mpr hes
      | false => exact isNnf_conj.mpr hes

/-! ### What simplification makes of literals -/

def IsSettled (e : Expr) : Prop := e = top ∨ e = bottom ∨ e.IsLiteral

theorem isSettled_equate (x y : Arg) : (equate x y).IsSettled := by
  have hother : (if x = y then top else equal x y).IsSettled := by
    split
    · exact Or.inl rfl
    · exact Or.inr (Or.inr trivial)
  cases x with
  | slot i => exact hother
  | const c =>
      cases y with
      | slot j => exact hother
      | const d =>
          rw [equate]
          split
          · exact Or.inl rfl
          · exact Or.inr (Or.inl rfl)

theorem equate_ne_neg (x y : Arg) (e : Expr) : equate x y ≠ neg e := by
  unfold equate
  split <;> split <;> simp

theorem isSettled_negate_equate (x y : Arg) : (negate (equate x y)).IsSettled := by
  rcases isSettled_equate x y with h | h | h
  · rw [h]; exact Or.inr (Or.inl rfl)
  · rw [h]; exact Or.inl rfl
  · cases he : equate x y with
    | equal a b => exact Or.inr (Or.inr trivial)
    | atom a => exact Or.inr (Or.inr trivial)
    | neg e => exact absurd he (equate_ne_neg x y e)
    | _ => rw [he] at h; exact absurd h id

theorem IsLiteral.simplify {e : Expr} (h : e.IsLiteral) : e.simplify.IsSettled := by
  match e, h with
  | atom a, _ => exact Or.inr (Or.inr trivial)
  | equal x y, _ => exact isSettled_equate x y
  | neg (atom a), _ => exact Or.inr (Or.inr trivial)
  | neg (equal x y), _ => exact isSettled_negate_equate x y

theorem isSettled_negate_settleAtom (value : Fact → Option Bool) (a : Atom) :
    (negate (settleAtom value a).simplify).IsSettled := by
  rw [settleAtom]
  split
  · exact Or.inr (Or.inl rfl)
  · exact Or.inl rfl
  · exact Or.inr (Or.inr trivial)

theorem isSettled_settleAtom (value : Fact → Option Bool) (a : Atom) :
    (settleAtom value a).simplify.IsSettled := by
  rw [settleAtom]
  split
  · exact Or.inl rfl
  · exact Or.inr (Or.inl rfl)
  · exact Or.inr (Or.inr trivial)

theorem IsLiteral.assign {e : Expr} (h : e.IsLiteral) (value : Fact → Option Bool) :
    (e.assign value).IsSettled := by
  match e, h with
  | atom a, _ => exact isSettled_settleAtom value a
  | equal x y, _ => exact isSettled_equate x y
  | neg (atom a), _ => exact isSettled_negate_settleAtom value a
  | neg (equal x y), _ => exact isSettled_negate_equate x y

/-! ### Clauses -/

/-- One flat conjunction of literals. -/
def IsClause (e : Expr) : Prop := ∀ l ∈ e.conjuncts, l.IsLiteral

theorem IsLiteral.conjuncts_eq {e : Expr} (h : e.IsLiteral) : e.conjuncts = [e] := by
  cases e with
  | top | conj es => exact absurd h id
  | _ => rfl

theorem IsLiteral.isClause {e : Expr} (h : e.IsLiteral) : e.IsClause := by
  rw [IsClause, h.conjuncts_eq]
  exact List.forall_mem_singleton.mpr h

theorem not_isSettled_of (c : Connective) (es : List Expr) : ¬ (c.of es).IsSettled := by
  cases c <;> rintro (h | h | h) <;> exact nomatch h

theorem isClause_join {es : List Expr} (h : ∀ e ∈ es, e.IsSettled) :
    Connective.all.join es = bottom ∨ (Connective.all.join es).IsClause := by
  have hliteral (e : Expr) (he : e ∈ es) (hs : Connective.all.Single e) (hzero : e ≠ bottom) : e.IsLiteral :=
    ((h e he).resolve_left hs.ne_unit).resolve_left hzero
  refine Connective.join_induction (P := fun e => e = bottom ∨ e.IsClause) hliteral
    (fun fs hfs => absurd (h _ hfs) (not_isSettled_of .all fs)) ?_ ?_ (fun p hp => Or.inr hp.isClause)
    fun _ hps => Or.inr hps
  · exact Or.inl rfl
  · exact Or.inr fun l hl => absurd hl List.not_mem_nil

theorem isClause_simplify_conj {es : List Expr} (h : ∀ e ∈ es, e.IsLiteral) :
    (conj es).simplify = bottom ∨ (conj es).simplify.IsClause := by
  rw [simplify_conj]
  exact isClause_join (List.forall_mem_map.mpr fun e he => (h e he).simplify)

theorem IsSettled.isClause {e : Expr} (h : e.IsSettled) : e = bottom ∨ e.IsClause := by
  rcases h with rfl | h | h
  · exact Or.inr fun l hl => absurd hl List.not_mem_nil
  · exact Or.inl h
  · exact Or.inr h.isClause

theorem IsClause.assign {e : Expr} (h : e.IsClause) (value : Fact → Option Bool) :
    e.assign value = bottom ∨ (e.assign value).IsClause := by
  cases e with
  | top => exact IsSettled.isClause (Or.inl rfl)
  | conj es =>
      rw [Expr.assign, settle, simplify_conj, settleAll_eq_map, List.map_map]
      exact isClause_join (List.forall_mem_map.mpr fun e he => (h e he).assign value)
  | _ => exact ((h _ List.mem_cons_self).assign value).isClause

theorem IsLiteral.subst {e : Expr} (h : e.IsLiteral) (b : List Nat) : (e.subst b).IsLiteral := by
  match e, h with
  | atom a, _ | equal x y, _ | neg (atom a), _ | neg (equal x y), _ => trivial

theorem conjuncts_subst (e : Expr) (b : List Nat) :
    (e.subst b).conjuncts = e.conjuncts.map (Expr.subst b) := by
  cases e with
  | conj es => exact substAll_eq_map b es
  | _ => rfl

theorem IsClause.subst {e : Expr} (h : e.IsClause) (b : List Nat) : (e.subst b).IsClause := by
  rw [IsClause, conjuncts_subst, List.forall_mem_map]
  exact fun l hl => (h l hl).subst b

/-! ### The disjunctive normal form -/

theorem hereditary_isNnf : Hereditary IsNnf :=
  ⟨trivial, trivial, fun _ => isNnf_conj, fun _ => isNnf_disj⟩

theorem IsSettled.isNnf {e : Expr} (h : e.IsSettled) : e.IsNnf := by
  rcases h with rfl | rfl | h
  · trivial
  · trivial
  · exact h.isNnf

theorem IsNnf.simplify {e : Expr} (h : e.IsNnf) : e.simplify.IsNnf := by
  induction e using induct_of with
  | top | bottom => trivial
  | task t => exact h
  | atom a => trivial
  | equal x y => exact (isSettled_equate x y).isNnf
  | neg e => exact (IsLiteral.simplify h).isNnf
  | of c es ih => exact hereditary_isNnf.simplify c ih ((hereditary_isNnf.of c es).mp h)

theorem mem_of_mem_clausesAll {es c : List Expr} {l : Expr} (hc : c ∈ clausesAll es) (hl : l ∈ c) :
    ∃ e ∈ es, ∃ d ∈ e.clauses, l ∈ d := by
  induction es generalizing c with
  | nil =>
      rw [clausesAll, List.mem_singleton] at hc
      exact absurd (hc ▸ hl) List.not_mem_nil
  | cons e es ih =>
      simp only [clausesAll, List.mem_flatMap, List.mem_map] at hc
      obtain ⟨d, hd, c', hc', rfl⟩ := hc
      rcases List.mem_append.mp hl with hl | hl
      · exact ⟨e, List.mem_cons_self, d, hd, hl⟩
      · obtain ⟨f, hf, h⟩ := ih hc' hl
        exact ⟨f, List.mem_cons_of_mem e hf, h⟩

/-- What holds of an expression and is handed down to members holds of what its clauses consist of. -/
theorem of_mem_clauses {Q : Expr → Prop} (hQ : Hereditary Q) {e l : Expr} {c : List Expr} (h : Q e)
    (hc : c ∈ e.clauses) (hl : l ∈ c) :
    Q l ∧ l ≠ top ∧ l ≠ bottom ∧ (∀ es, l ≠ conj es) ∧ ∀ es, l ≠ disj es := by
  induction e using Expr.induct generalizing c with
  | top =>
      rw [clauses, List.mem_singleton] at hc
      exact absurd (hc ▸ hl) List.not_mem_nil
  | bottom => exact absurd hc List.not_mem_nil
  | conj es ih =>
      obtain ⟨e, he, d, hd, hl⟩ := mem_of_mem_clausesAll hc hl
      exact ih e he ((hQ.conj es).mp h e he) hd hl
  | disj es ih =>
      obtain ⟨e, he, hc⟩ := mem_clausesAny.mp hc
      exact ih e he ((hQ.disj es).mp h e he) hc hl
  | task t | atom a | equal x y | neg e =>
      have hle := List.mem_singleton.mp (List.mem_singleton.mp hc ▸ hl)
      rw [hle]
      exact ⟨h, by simp⟩

theorem isLiteral_of_mem_clauses {e l : Expr} {c : List Expr} (h : e.IsNnf) (hc : c ∈ e.clauses)
    (hl : l ∈ c) : l.IsLiteral := by
  obtain ⟨hl, htop, hbottom, hconj, hdisj⟩ := of_mem_clauses hereditary_isNnf h hc hl
  cases l with
  | top => exact absurd rfl htop
  | bottom => exact absurd rfl hbottom
  | atom a => trivial
  | equal x y => trivial
  | neg e => exact hl
  | conj es => exact absurd rfl (hconj es)
  | disj es => exact absurd rfl (hdisj es)
  | task t => exact hl

theorem Over.of_mem_dnf {e l : Expr} {c : List Expr} (h : e.Over A E)
    (hE : ∀ x y, E x y → (equate x y).Over A E') (hc : c ∈ e.dnf) (hl : l ∈ c) :
    l.IsLiteral ∧ l.Over A E' :=
  ⟨isLiteral_of_mem_clauses (h.isNnf_nnf true).simplify hc hl,
    (of_mem_clauses hereditary_over ((h.nnf true).simplify hE) hc hl).1⟩

theorem Over.of_mem_variants {e v : Expr} (h : e.Over A E) (hv : v ∈ e.variants) :
    v.IsClause ∧ v.Over A E := by
  simp only [variants, List.mem_filter, List.mem_map, bne_iff_ne] at hv
  obtain ⟨⟨c, hc, rfl⟩, hne⟩ := hv
  have hE : ∀ x y, E x y → (equate x y).Over A E := fun x y => over_equate
  refine ⟨(isClause_simplify_conj fun l hl => (h.of_mem_dnf hE hc hl).1).resolve_left hne, ?_⟩
  exact (over_conj.mpr fun l hl => (h.of_mem_dnf hE hc hl).2).simplify hE

/-! ### Ground literals -/

def GroundAtom (a : Atom) : Prop := a.fact?.isSome

/-- Nothing but facts: no slots, and no equalities. -/
def IsGround (e : Expr) : Prop := e.Over GroundAtom fun _ _ => False

theorem isGround_assign {e : Expr} (value : Fact → Option Bool)
    (h : e.Over GroundAtom fun x y => x.const?.isSome ∧ y.const?.isSome) :
    (e.assign value).IsGround :=
  h.assign value fun _ _ hxy => over_equate_const hxy.1 hxy.2

theorem IsGround.assign {e : Expr} (h : e.IsGround) (value : Fact → Option Bool) :
    (e.assign value).IsGround :=
  Over.assign h value fun _ _ hxy => absurd hxy id

theorem literal?_isSome {e : Expr} (h : e.IsLiteral) (hg : e.IsGround) : ∃ l, e.literal? = some l := by
  match e, h, hg with
  | atom a, _, hg =>
      obtain ⟨f, hf⟩ := Option.isSome_iff_exists.mp hg
      exact ⟨_, Option.map_eq_some_iff.mpr ⟨f, hf, rfl⟩⟩
  | neg (atom a), _, hg =>
      obtain ⟨f, hf⟩ := Option.isSome_iff_exists.mp hg
      exact ⟨_, Option.map_eq_some_iff.mpr ⟨f, hf, rfl⟩⟩
  | equal x y, _, hg => exact absurd hg id
  | neg (equal x y), _, hg => exact absurd hg id

end HtnPlanner.Expr
