import HtnPlanner.Proofs.Definition.Meaning
import HtnPlanner.Proofs.Lifted.Acceptance

/-!
Names are different where ids are, so a condition is true of facts by name when its translation is true of them by id,
and an effect brings about the same facts either way.
-/

namespace HtnPlanner

open Definition (Term Formula Typed)

variable {s s' : Symbols} {sc : Scope} {σ : String → String} {b : List Nat} {F : Set (Definition.Atom String)}

/-! ### Names and ids -/

theorem Catalog.id?_inj {α : Type} {c : Catalog α} {name name' : String} {id : Nat} (h : c.id? name = some id)
    (h' : c.id? name' = some id) : name = name' := by
  obtain ⟨hlt, hname, -⟩ := List.findIdx?_eq_some_iff_getElem.mp h
  obtain ⟨hlt', hname', -⟩ := List.findIdx?_eq_some_iff_getElem.mp h'
  exact (beq_iff_eq.mp hname).symm.trans (beq_iff_eq.mp hname')

theorem knownConstant_eq_ok {name : String} {c : Nat} :
    knownConstant s name = .ok c ↔ s.constants.id? name = some c := by
  rw [knownConstant]
  split <;> simp_all

theorem id?_of_knownPredicate {name : String} {arity q : Nat} (h : knownPredicate s name arity = .ok q) :
    s.predicates.id? name = some q := by
  rw [knownPredicate] at h
  split at h
  · next q' hq' =>
      obtain ⟨_, -, h⟩ := Except.bind_eq_ok.mp h
      rw [hq', Except.ok.inj h]
  · cases h

/-- Facts that have the same ids have the same names. -/
theorem initialFact_inj {a a' : Definition.Atom String} {f : Fact} (h : initialFact s a = .ok f)
    (h' : initialFact s a' = .ok f) : a = a' := by
  obtain ⟨hq, hcs⟩ := initialFact_eq_ok.mp h
  obtain ⟨hq', hcs'⟩ := initialFact_eq_ok.mp h'
  have hname : a.name = a'.name := Catalog.id?_inj (id?_of_knownPredicate hq) (id?_of_knownPredicate hq')
  have hvalues : a.values = a'.values := by
    rw [Except.mapM_eq_ok_iff] at hcs hcs'
    refine List.left_unique_forall₂' ?_ hcs hcs'
    intro n c m hn hm
    exact Catalog.id?_inj (knownConstant_eq_ok.mp hn) (knownConstant_eq_ok.mp hm)
  cases a
  cases a'
  exact congrArg₂ _ hname hvalues

/-- What is known by ids of facts that are given by name. A fact that mentions something undeclared has no ids. -/
def Symbols.interned (s : Symbols) (F : Set (Definition.Atom String)) : Set Fact :=
  {f | ∃ a ∈ F, initialFact s a = .ok f}

theorem mem_interned_iff {a : Definition.Atom String} {f : Fact} (h : initialFact s a = .ok f) :
    f ∈ s.interned F ↔ a ∈ F := by
  constructor
  · rintro ⟨a', ha', hf⟩
    exact initialFact_inj hf h ▸ ha'
  · exact fun ha => ⟨a, ha, h⟩

/-! ### Conditions -/

namespace Scope

/-- The constants that the variables in scope stand for, by name and by id. -/
def Binds (sc : Scope) (s : Symbols) (σ : String → String) (b : List Nat) : Prop :=
  List.Forall₂ (fun v c => knownConstant s (σ v) = .ok c) sc.names b

theorem Binds.value (hb : sc.Binds s σ b) {v : String} {i : Nat} (hi : sc.names[i]? = some v) :
    ∃ c, knownConstant s (σ v) = .ok c ∧ b[i]? = some c := by
  obtain ⟨hlength, hget⟩ := List.forall₂_iff_get.mp hb
  obtain ⟨hlt, rfl⟩ := List.getElem?_eq_some_iff.mp hi
  exact ⟨_, hget i hlt (hlength ▸ hlt), List.getElem?_eq_getElem _⟩

theorem exists_const (hb : sc.Binds s σ b) {t : Term} {x : Arg} (h : sc.arg s t = .ok x) :
    ∃ c, knownConstant s (t.value σ) = .ok c ∧ x.subst b = .const c := by
  cases t with
  | name n =>
      obtain ⟨c, hc, rfl⟩ := Except.map_eq_ok.mp h
      exact ⟨c, hc, rfl⟩
  | var v =>
      rw [arg] at h
      split at h
      · next i hi =>
          obtain rfl := Except.ok.inj h
          obtain ⟨c, hc, hget⟩ := hb.value (getElem?_of_idxOf? hi)
          exact ⟨c, hc, by rw [Arg.subst, hget]⟩
      · cases h

theorem exists_consts (hb : sc.Binds s σ b) {ts : List Term} {xs : List Arg} (h : ts.mapM (sc.arg s) = .ok xs) :
    ∃ cs, (ts.map (·.value σ)).mapM (knownConstant s) = .ok cs ∧ xs.map (·.subst b) = cs.map .const := by
  rw [Except.mapM_eq_ok_iff] at h
  induction h with
  | nil => exact ⟨[], rfl, rfl⟩
  | cons ht _ ih =>
      obtain ⟨c, hc, hsubst⟩ := exists_const hb ht
      obtain ⟨cs, hcs, hsubsts⟩ := ih
      refine ⟨c :: cs, ?_, by rw [List.map_cons, List.map_cons, hsubst, hsubsts]⟩
      exact Except.mapM_eq_ok_iff.mpr (.cons hc (Except.mapM_eq_ok_iff.mp hcs))

theorem exists_fact (hb : sc.Binds s σ b) {a : Definition.Atom Term} {x : Atom} (h : sc.atom s a = .ok x) :
    ∃ f, initialFact s (a.ground σ) = .ok f ∧ x.subst b = .ofFact f := by
  obtain ⟨hq, hxs⟩ := atom_eq_ok.mp h
  obtain ⟨cs, hcs, hsubst⟩ := exists_consts hb hxs
  refine ⟨⟨x.predicate, cs⟩, initialFact_eq_ok.mpr ⟨?_, hcs⟩, congrArg (Atom.mk x.predicate) hsubst⟩
  rwa [Definition.Atom.ground, List.length_map]

theorem holds_formula (hb : sc.Binds s σ b) {f : Formula} {e : Expr} (h : sc.formula s f = .ok e) :
    e.Holds b (s.interned F) ↔ f.Holds σ F := by
  have hmembers : ∀ {fs : List Formula} {es : List Expr}, sc.formulas s fs = .ok es →
      (∀ e ∈ es, ∃ f ∈ fs, sc.formula s f = .ok e) ∧ ∀ f ∈ fs, ∃ e ∈ es, sc.formula s f = .ok e := by
    intro fs es hes
    refine ⟨formulas_eq_ok hes, fun f hf => ?_⟩
    rw [formulas_eq_mapM] at hes
    exact Except.exists_of_mapM_eq_ok hes hf
  induction f using Formula.induct generalizing e with
  | atom a =>
      rw [formula] at h
      obtain ⟨x, hx, rfl⟩ := Except.map_eq_ok.mp h
      obtain ⟨f, hf, hsubst⟩ := exists_fact hb hx
      rw [Formula.Holds, ← mem_interned_iff hf, Expr.Holds, hsubst]
      simp
  | conj fs ih =>
      rw [formula] at h
      obtain ⟨es, hes, rfl⟩ := Except.map_eq_ok.mp h
      obtain ⟨hback, hforth⟩ := hmembers hes
      rw [Expr.holds_conj, Formula.holds_conj]
      constructor
      · intro hholds f hf
        obtain ⟨e, he, hfe⟩ := hforth f hf
        exact (ih f hf hfe).mp (hholds e he)
      · intro hholds e he
        obtain ⟨f, hf, hfe⟩ := hback e he
        exact (ih f hf hfe).mpr (hholds f hf)
  | disj fs ih =>
      rw [formula] at h
      obtain ⟨es, hes, rfl⟩ := Except.map_eq_ok.mp h
      obtain ⟨hback, hforth⟩ := hmembers hes
      rw [Expr.holds_disj, Formula.holds_disj]
      constructor
      · rintro ⟨e, he, hholds⟩
        obtain ⟨f, hf, hfe⟩ := hback e he
        exact ⟨f, hf, (ih f hf hfe).mp hholds⟩
      · rintro ⟨f, hf, hholds⟩
        obtain ⟨e, he, hfe⟩ := hforth f hf
        exact ⟨e, he, (ih f hf hfe).mpr hholds⟩
  | neg f ih =>
      rw [formula] at h
      obtain ⟨e, he, rfl⟩ := Except.map_eq_ok.mp h
      have hf : e.Holds b (s.interned F) ↔ f.Holds σ F := ih he
      rw [Expr.holds_neg, Formula.Holds, hf]
  | imply f g ihf ihg =>
      rw [formula] at h
      obtain ⟨d, hd, h⟩ := Except.bind_eq_ok.mp h
      obtain ⟨c, hc, h⟩ := Except.bind_eq_ok.mp h
      obtain rfl : Expr.disj [.neg d, c] = e := by simpa [pure, Except.pure] using h
      have hf : d.Holds b (s.interned F) ↔ f.Holds σ F := ihf hd
      have hg : c.Holds b (s.interned F) ↔ g.Holds σ F := ihg hc
      rw [Expr.holds_disj, Formula.Holds, ← hf, ← hg]
      simp [Expr.holds_neg]
  | equal t u =>
      rw [formula] at h
      obtain ⟨x, hx, h⟩ := Except.bind_eq_ok.mp h
      obtain ⟨y, hy, h⟩ := Except.bind_eq_ok.mp h
      obtain rfl : Expr.equal x y = e := by simpa [pure, Except.pure] using h
      obtain ⟨c, hc, hxc⟩ := exists_const hb hx
      obtain ⟨c', hc', hyc⟩ := exists_const hb hy
      rw [Expr.Holds, Formula.Holds, hxc, hyc, Arg.const.injEq]
      constructor
      · rintro rfl
        exact Catalog.id?_inj (knownConstant_eq_ok.mp hc) (knownConstant_eq_ok.mp hc')
      · intro heq
        rw [heq, hc'] at hc
        exact (Except.ok.inj hc).symm

theorem holds_condition (hb : sc.Binds s σ b) {fs : List Formula} {e : Expr} (h : sc.condition s fs = .ok e) :
    e.Holds b (s.interned F) ↔ ∀ f ∈ fs, f.Holds σ F := by
  obtain ⟨es, hes, rfl⟩ := Except.map_eq_ok.mp h
  have hconj : sc.formula s (.conj fs) = .ok (.conj es) := by rw [formula, hes]; rfl
  rw [Expr.holds_simplify, holds_formula hb hconj, Formula.holds_conj]

end Scope

/-! ### Effects -/

/-- The effect makes the fact of the literal true or false. -/
inductive Definition.Effect.Asserts (s : Symbols) (σ : String → String) : Definition.Effect → Literal → Prop
  | add {a : Definition.Atom Term} {f : Fact} :
      initialFact s (a.ground σ) = .ok f → Asserts s σ (.add a) ⟨true, f⟩
  | delete {a : Definition.Atom Term} {f : Fact} :
      initialFact s (a.ground σ) = .ok f → Asserts s σ (.delete a) ⟨false, f⟩

theorem Scope.exists_literals (hb : sc.Binds s σ b) {es : List Definition.Effect} {e : Expr}
    (h : sc.effects s es = .ok e) : List.Forall₂ (Definition.Effect.Asserts s σ) es (e.subst b).literals := by
  obtain ⟨ls, hls, rfl⟩ := Except.map_eq_ok.mp h
  rw [Except.mapM_eq_ok_iff] at hls
  clear h
  obtain ⟨lits, hlits, hasserts⟩ : ∃ lits, ls.map (Expr.subst b) = lits.map Expr.ofLiteral ∧
      List.Forall₂ (Definition.Effect.Asserts s σ) es lits := by
    induction hls with
    | nil => exact ⟨[], rfl, .nil⟩
    | @cons d l es ls hd _ ih =>
        obtain ⟨lits, hlits, hasserts⟩ := ih
        cases d with
        | add a =>
            obtain ⟨x, hx, rfl⟩ := Except.map_eq_ok.mp hd
            obtain ⟨f, hf, hsubst⟩ := exists_fact hb hx
            refine ⟨⟨true, f⟩ :: lits, ?_, .cons (.add hf) hasserts⟩
            rw [List.map_cons, List.map_cons, hlits, Expr.subst, hsubst]
            rfl
        | delete a =>
            obtain ⟨x, hx, rfl⟩ := Except.map_eq_ok.mp hd
            obtain ⟨f, hf, hsubst⟩ := exists_fact hb hx
            refine ⟨⟨false, f⟩ :: lits, ?_, .cons (.delete hf) hasserts⟩
            rw [List.map_cons, List.map_cons, hlits, Expr.subst, Expr.subst, hsubst]
            rfl
  rw [Expr.subst, Expr.substAll_eq_map, hlits, Expr.literals_conj_ofLiteral]
  exact hasserts

namespace Definition.Effect

variable {es : List Definition.Effect} {lits : List Literal} {f : Fact}

theorem Asserts.unique {e : Definition.Effect} {l l' : Literal} (h : e.Asserts s σ l) (h' : e.Asserts s σ l') :
    l = l' := by
  cases h with
  | add hf =>
      cases h' with
      | add hf' => rw [Except.ok.inj (hf.symm.trans hf')]
  | delete hf =>
      cases h' with
      | delete hf' => rw [Except.ok.inj (hf.symm.trans hf')]

theorem mem_iff_asserts (h : List.Forall₂ (Asserts s σ) es lits) {l : Literal} :
    l ∈ lits ↔ ∃ e ∈ es, e.Asserts s σ l := by
  induction h with
  | nil => simp
  | @cons e l' es lits hel _ ih =>
      rw [List.mem_cons, ih]
      simp only [List.mem_cons, exists_eq_or_imp]
      refine or_congr_left ⟨?_, fun hl => hl.unique hel⟩
      rintro rfl
      exact hel

theorem mem_added (h : List.Forall₂ (Asserts s σ) es lits) :
    ⟨true, f⟩ ∈ lits ↔ ∃ a, .add a ∈ es ∧ initialFact s (a.ground σ) = .ok f := by
  rw [mem_iff_asserts h]
  constructor
  · rintro ⟨_, he, hasserts⟩
    cases hasserts with
    | add hf => exact ⟨_, he, hf⟩
  · rintro ⟨a, ha, hf⟩
    exact ⟨_, ha, .add hf⟩

theorem mem_deleted (h : List.Forall₂ (Asserts s σ) es lits) :
    ⟨false, f⟩ ∈ lits ↔ ∃ a, .delete a ∈ es ∧ initialFact s (a.ground σ) = .ok f := by
  rw [mem_iff_asserts h]
  constructor
  · rintro ⟨_, he, hasserts⟩
    cases hasserts with
    | delete hf => exact ⟨_, he, hf⟩
  · rintro ⟨a, ha, hf⟩
    exact ⟨_, ha, .delete hf⟩

/-- Effects are applied by name as they are by id. -/
theorem interned_result (h : List.Forall₂ (Asserts s σ) es lits) :
    s.interned (result σ es F) =
      (s.interned F \ {f | ⟨false, f⟩ ∈ lits}) ∪ {f | ⟨true, f⟩ ∈ lits} := by
  ext f
  simp only [Set.mem_union, Set.mem_sdiff, Set.mem_ofPred_eq, mem_added h, mem_deleted h]
  constructor
  · rintro ⟨a, ⟨ha, hkept⟩ | ⟨x, hx, rfl⟩, hf⟩
    · refine Or.inl ⟨⟨a, ha, hf⟩, ?_⟩
      rintro ⟨x, hx, hxf⟩
      exact hkept ⟨x, hx, initialFact_inj hxf hf⟩
    · exact Or.inr ⟨x, hx, hf⟩
  · rintro (⟨⟨a, ha, hf⟩, hkept⟩ | ⟨x, hx, hf⟩)
    · refine ⟨a, Or.inl ⟨ha, ?_⟩, hf⟩
      rintro ⟨x, hx, rfl⟩
      exact hkept ⟨x, hx, hf⟩
    · exact ⟨_, Or.inr ⟨x, hx, rfl⟩, hf⟩

end Definition.Effect

/-! ### Operators -/

namespace Symbols

/-- The constants that the parameters stand for, by name and by id. -/
def Binds (s : Symbols) (σ : String → String) (ps : List Typed) (b : List Nat) : Prop :=
  List.Forall₂ (fun t c => s.constants.id? (σ t.value) = some c) ps b

/-- Where the parameters are bound, the expression is true of facts by id as the formulas are of them by name. -/
def Renders (s : Symbols) (ps : List Typed) (fs : List Formula) (e : Expr) : Prop :=
  ∀ σ b, s.Binds σ ps b → ∀ F, (e.subst b).Holds [] (s.interned F) ↔ ∀ f ∈ fs, f.Holds σ F

/-- The literals of an instance of the expression are what the effects make true and false, in their order. -/
def Asserts (s : Symbols) (ps : List Typed) (es : List Definition.Effect) (e : Expr) : Prop :=
  ∀ σ b, s.Binds σ ps b → List.Forall₂ (Definition.Effect.Asserts s σ) es (e.subst b).literals

theorem Extends.knownConstant (h : s.Extends s') : knownConstant s' = knownConstant s := by
  funext name
  rw [HtnPlanner.knownConstant, HtnPlanner.knownConstant, h.constants]

theorem Extends.initialFact (h : s.Extends s') : initialFact s' = initialFact s := by
  funext a
  rw [HtnPlanner.initialFact, HtnPlanner.initialFact, h.knownConstant, knownPredicate, knownPredicate, h.predicates]

theorem Extends.renders (h : s.Extends s') {ps : List Typed} {fs : List Formula} {e : Expr} (he : s.Renders ps fs e) :
    s'.Renders ps fs e := by
  intro σ b hb F
  rw [Binds, h.constants] at hb
  rw [interned, h.initialFact]
  exact he σ b hb F

theorem Extends.asserts (h : s.Extends s') {ps : List Typed} {es : List Definition.Effect} {e : Expr}
    (he : s.Asserts ps es e) : s'.Asserts ps es e := by
  intro σ b hb
  rw [Binds, h.constants] at hb
  refine (he σ b hb).imp fun d l hd => ?_
  cases hd with
  | add hf => exact .add (h.initialFact ▸ hf)
  | delete hf => exact .delete (h.initialFact ▸ hf)

end Symbols

namespace Scope

variable {ps : List Typed} (hsc : sc.names = ps.map (·.value))

include hsc

theorem binds_iff : sc.Binds s σ b ↔ s.Binds σ ps b := by
  rw [Binds, hsc, List.forall₂_map_left_iff]
  simp only [knownConstant_eq_ok]
  rfl

theorem renders_condition {fs : List Formula} {e : Expr} (h : sc.condition s fs = .ok e) : s.Renders ps fs e :=
  fun _ _ hb _ => Expr.holds_subst.trans (holds_condition ((binds_iff hsc).mpr hb) h)

theorem asserts_effects {es : List Definition.Effect} {e : Expr} (h : sc.effects s es = .ok e) : s.Asserts ps es e :=
  fun _ _ hb => exists_literals ((binds_iff hsc).mpr hb) h

end Scope

namespace Naming

theorem action_renders {a : Definition.Action} {A : Schema.Action} (h : action a s = .ok (A, s')) :
    s.Extends s' ∧ s'.Renders a.parameters a.preconditions A.precondition ∧
      s'.Asserts a.parameters a.effects A.effect := by
  obtain ⟨sc, hparts⟩ := parts_of_action h
  obtain ⟨hextends, hnames⟩ := scope_names hparts.scope
  exact ⟨hextends, Scope.renders_condition hnames hparts.precondition, Scope.asserts_effects hnames hparts.effect⟩

theorem method_renders {m : Definition.Method} {M : Schema.Method} (h : method m s = .ok (M, s')) :
    s.Extends s' ∧ s'.Renders m.parameters m.preconditions M.precondition := by
  obtain ⟨sc, hparts⟩ := parts_of_method h
  obtain ⟨hextends, hnames⟩ := scope_names hparts.scope
  exact ⟨hextends, Scope.renders_condition hnames hparts.precondition⟩

theorem problem_renders {d : Definition.Domain} {p : Definition.Problem} {L : LiftedProblem}
    (h : problem d p {} = .ok (L, s')) :
    List.Forall₂ (fun a A => L.symbols.Renders a.parameters a.preconditions A.precondition ∧
        L.symbols.Asserts a.parameters a.effects A.effect) d.actions L.actions ∧
      List.Forall₂ (fun m M => L.symbols.Renders m.parameters m.preconditions M.precondition) d.methods L.methods ∧
      L.symbols.Renders [] p.goal L.goal ∧
      ∀ t ∈ d.constants ++ p.objects, ∃ c, L.symbols.constants.id? t.value = some c := by
  obtain ⟨-, s₁, s₂, hparts⟩ := problem_eq_ok.mp h
  obtain ⟨hextends, hrest⟩ := forall₂_of_mapM (R := fun s (a : Definition.Action) (A : Schema.Action) =>
      s.Renders a.parameters a.preconditions A.precondition ∧ s.Asserts a.parameters a.effects A.effect)
    (fun _ _ _ _ ha => action_renders ha) (fun _ _ _ _ hs ha => ⟨hs.renders ha.1, hs.asserts ha.2⟩) hparts.actions
  obtain ⟨hextends', hrest'⟩ := forall₂_of_mapM (R := fun s (m : Definition.Method) (M : Schema.Method) =>
      s.Renders m.parameters m.preconditions M.precondition)
    (fun _ _ _ _ hm => method_renders hm) (fun _ _ _ _ hs hm => hs.renders hm) hparts.methods
  refine ⟨hrest.imp fun a A ha => ⟨hextends'.renders ha.1, hextends'.asserts ha.2⟩, hrest',
    Scope.renders_condition rfl hparts.goal, fun t ht => ?_⟩
  have hcomplete : Complete d p s₁ := by
    have hmeets := declare_meets d p
    rwa [hparts.declared] at hmeets
  obtain ⟨c, -, hc, -⟩ := hcomplete.constants.recorded t.declaration (List.mem_map_of_mem ht)
  refine ⟨c, ?_⟩
  rw [hextends'.constants, hextends.constants]
  exact hc

end Naming

theorem Symbols.exists_binds {ps : List Typed} (h : ∀ t ∈ ps, ∃ c, s.constants.id? (σ t.value) = some c) :
    ∃ b, s.Binds σ ps b := by
  induction ps with
  | nil => exact ⟨[], .nil⟩
  | cons t ps ih =>
      obtain ⟨⟨c, hc⟩, hrest⟩ := List.forall_mem_cons.mp h
      obtain ⟨b, hb⟩ := ih hrest
      exact ⟨c :: b, .cons hc hb⟩

/-- Conditions and effects mean by id what they mean by name. Let constants be given for the parameters of an action or
a method. In the instance with their ids the stored precondition is true of the ids of facts exactly if all formulas
are true of the facts, and the literals of the stored effect lead from the ids of facts to those of the facts that the
effects lead to, where what is both deleted and added is true. Facts with the same ids are the same. -/
theorem ofDefinitions_keeps_meaning {d : Definition.Domain} {p : Definition.Problem} {L : LiftedProblem}
    (h : LiftedProblem.ofDefinitions (some d) (some p) = .ok L) :
    List.Forall₂ (fun (a : Definition.Action) (A : Schema.Action) =>
      ∀ σ, (∀ t ∈ a.parameters, ∃ c ∈ d.constants ++ p.objects, c.value = σ t.value) →
        ∃ b, L.symbols.Binds σ a.parameters b ∧
          (∀ F, (∀ f ∈ a.preconditions, f.Holds σ F) ↔
            (A.instantiate b).precondition.Holds [] (L.symbols.interned F)) ∧
          List.Forall₂ (Definition.Effect.Asserts L.symbols σ) a.effects (A.instantiate b).effectLiterals ∧
          ∀ F, L.symbols.interned (Definition.Effect.result σ a.effects F) =
            (L.symbols.interned F \ {f | ⟨false, f⟩ ∈ (A.instantiate b).effectLiterals}) ∪
              {f | ⟨true, f⟩ ∈ (A.instantiate b).effectLiterals}) d.actions L.actions ∧
      List.Forall₂ (fun (m : Definition.Method) (M : Schema.Method) =>
        ∀ σ, (∀ t ∈ m.parameters, ∃ c ∈ d.constants ++ p.objects, c.value = σ t.value) →
          ∃ b, L.symbols.Binds σ m.parameters b ∧
            ∀ F, (∀ f ∈ m.preconditions, f.Holds σ F) ↔
              (M.instantiate b).precondition.Holds [] (L.symbols.interned F)) d.methods L.methods ∧
      (∀ σ F, (∀ f ∈ p.goal, f.Holds σ F) ↔ L.goal.Holds [] (L.symbols.interned F)) ∧
      ∀ x y f, initialFact L.symbols x = .ok f → initialFact L.symbols y = .ok f → x = y := by
  obtain ⟨⟨L', s⟩, hproblem, hL⟩ := Except.map_eq_ok.mp h
  obtain rfl : L' = L := hL
  obtain ⟨hactions, hmethods, hgoal, hconstants⟩ := Naming.problem_renders hproblem
  have hbinds : ∀ σ ps, (∀ t ∈ ps, ∃ c ∈ d.constants ++ p.objects, c.value = σ t.value) →
      ∃ b, L'.symbols.Binds σ ps b := by
    intro σ ps hσ
    refine Symbols.exists_binds fun t ht => ?_
    obtain ⟨c, hc, hvalue⟩ := hσ t ht
    exact hvalue ▸ hconstants c hc
  refine ⟨hactions.imp fun a A ha σ hσ => ?_, hmethods.imp fun m M hm σ hσ => ?_, fun σ F => ?_, fun x y f hx hy => ?_⟩
  · obtain ⟨b, hb⟩ := hbinds σ a.parameters hσ
    have hliterals := ha.2 σ b hb
    exact ⟨b, hb, fun F => (ha.1 σ b hb F).symm, hliterals, fun F => Definition.Effect.interned_result hliterals⟩
  · obtain ⟨b, hb⟩ := hbinds σ m.parameters hσ
    exact ⟨b, hb, fun F => (hm σ b hb F).symm⟩
  · have hempty := hgoal σ [] .nil F
    rw [Expr.subst_nil] at hempty
    exact hempty.symm
  · exact initialFact_inj hx hy

/-- One who moves to where it is stays there, as what is added comes after what is deleted. -/
def moveAction : Definition.Action where
  name := "move"
  parameters := [⟨"?from", .object⟩, ⟨"?to", .object⟩]
  preconditions := [
    .imply (.atom ⟨"at", [.var "?to"]⟩) (.equal (.var "?from") (.var "?to")),
    .disj [.atom ⟨"at", [.var "?from"]⟩, .conj [.neg (.equal (.var "?to") (.name "home")), .disj []]]]
  effects := [.add ⟨"at", [.var "?to"]⟩, .delete ⟨"at", [.var "?from"]⟩]

def moveDomain : Definition.Domain where
  name := "move"
  constants := [⟨"home", .object⟩]
  predicates := [⟨"at", [⟨"?x", .object⟩]⟩]
  actions := [moveAction]

def moveProblem : Definition.Problem where
  name := "move"
  domain := "move"
  objects := [⟨"away", .object⟩]

theorem ofDefinitions_keeps_meaning_move :
    ∃ L, LiftedProblem.ofDefinitions (some moveDomain) (some moveProblem) = .ok L ∧
      ∃ A b, L.actions = [A] ∧ L.symbols.Binds (fun _ => "away") moveAction.parameters b ∧
        (∀ F, (∀ f ∈ moveAction.preconditions, f.Holds (fun _ => "away") F) ↔
          (A.instantiate b).precondition.Holds [] (L.symbols.interned F)) ∧
        ∀ F, L.symbols.interned (Definition.Effect.result (fun _ => "away") moveAction.effects F) =
          (L.symbols.interned F \ {f | ⟨false, f⟩ ∈ (A.instantiate b).effectLiterals}) ∪
            {f | ⟨true, f⟩ ∈ (A.instantiate b).effectLiterals} := by
  obtain ⟨L, hL, -⟩ : ∃ L, LiftedProblem.ofDefinitions (some moveDomain) (some moveProblem) = .ok L ∧ True :=
    exists_ok_of_any (by decide +kernel)
  obtain ⟨A, rest, hA, hrest, hactions⟩ := List.forall₂_cons_left_iff.mp (ofDefinitions_keeps_meaning hL).1
  obtain rfl := List.forall₂_nil_left_iff.mp hrest
  obtain ⟨b, hb, hcondition, -, hresult⟩ := hA (fun _ => "away") (by decide)
  exact ⟨L, hL, A, b, hactions, hb, hcondition, hresult⟩

end HtnPlanner
