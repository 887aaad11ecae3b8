import HtnPlanner.Proofs.Lifted.Declarations

/-!
A domain and a problem are accepted if they are well formed and their types are known, and an error tells of something
that is wrong with them.
-/

namespace HtnPlanner

open Definition

variable {d : Domain} {p : Problem} {s : Symbols} {o : Operator} {sc : Scope}

/-! ### References of an operator -/

namespace Records

variable {α : Type} {T : Symbols} {view : α → List Nat × Bool} {all xs : List Declaration} {c : Catalog α} {id : Nat}
  {e : α} {a : Definition.Atom Term}

theorem declares (h : Records T view all xs c) (hid : c.id? a.name = some id) (hd : c.definition? id = some e)
    (hlength : (view e).1.length = a.values.length) : Declares xs a := by
  refine ⟨h.declared a.name id hid, fun x hx hname => ?_⟩
  rw [h.length_types hx (hname ▸ hid) hd, hlength]

theorem exists_length (h : Records T view all xs c) {name : String} (hid : c.id? name = some id) :
    ∃ e, c.definition? id = some e ∧ ∃ x ∈ xs, x.name = name ∧ x.types.length = (view e).1.length := by
  obtain ⟨x, hx, rfl, e, he, -⟩ := h.exists_declared hid
  exact ⟨e, he, x, hx, rfl, h.length_types hx hid he⟩

end Records

namespace Scope

/-- Variables are looked up among the parameters of the operator. -/
structure Of (o : Operator) (sc : Scope) : Prop where
  name : sc.name = o.name
  names : sc.names = o.parameters.map (·.value)

section

variable (hs : Naming.Complete d p s) (ho : o ∈ operators d p)

include hs ho

theorem constant_meets {name : String} (hname : o.HasTerm (.name name)) :
    Meets (knownConstant s name) (fun _ => o.Knows d p (.name name)) (Defect d p) := by
  rw [knownConstant]
  cases hid : s.constants.id? name with
  | none => exact .unknownConstant ho hname (hs.constants.not_declared hid)
  | some c => exact hs.constants.declared name c hid

theorem predicate_meets {a : Definition.Atom Term} (ha : o.HasAtom a) :
    Meets (knownPredicate s a.name a.values.length) (fun _ => Declares (declarations d p .predicate) a)
      (Defect d p) := by
  rw [knownPredicate]
  cases hid : s.predicates.id? a.name with
  | none => exact .unknownPredicate ho ha (hs.predicates.not_declared hid)
  | some q =>
      obtain ⟨signature, hq, x, hx, hname, hlength⟩ := hs.predicates.exists_length hid
      simp only [hq, Option.elim_some, checkArity]
      by_cases harity : signature.length = a.values.length
      · rw [if_pos harity]
        exact hs.predicates.declares hid hq harity
      · rw [if_neg harity]
        exact hlength ▸ Defect.predicateArity ho ha hx hname (hlength ▸ harity)

theorem task_meets {a : Definition.Atom Term} (ha : o.HasTask a) :
    Meets (knownTask s a.name a.values.length) (fun _ => Declares (declarations d p .task) a) (Defect d p) := by
  rw [knownTask]
  cases hid : s.tasks.id? a.name with
  | none => exact .unknownTask ho ha (hs.tasks.not_declared hid)
  | some q =>
      obtain ⟨signature, hq, x, hx, hname, hlength⟩ := hs.tasks.exists_length hid
      simp only [hq, Option.elim_some, checkArity]
      by_cases harity : signature.parameters.length = a.values.length
      · rw [if_pos harity]
        exact hs.tasks.declares hid hq harity
      · rw [if_neg harity]
        exact hlength ▸ Defect.taskArity ho ha hx hname (hlength ▸ harity)

end

section

variable (hs : Naming.Complete d p s) (ho : o ∈ operators d p) (hsc : sc.Of o)

include hs ho hsc

theorem arg_meets {t : Term} (ht : o.HasTerm t) : Meets (sc.arg s t) (fun _ => o.Knows d p t) (Defect d p) := by
  cases t with
  | name n => exact (constant_meets hs ho ht).map fun _ h => h
  | var v =>
      rw [arg]
      cases hi : sc.names.idxOf? v with
      | none =>
          rw [List.idxOf?_eq_none_iff, hsc.names] at hi
          exact hsc.name ▸ Defect.unknownVariable ho ht fun t ht hv => hi (hv ▸ List.mem_map_of_mem ht)
      | some i =>
          have hv := List.mem_of_getElem? (getElem?_of_idxOf? hi)
          rw [hsc.names] at hv
          exact List.mem_map.mp hv

theorem args_meets {a : Definition.Atom Term} (ha : o.HasAtom a ∨ o.HasTask a) :
    Meets (a.values.mapM (sc.arg s)) (fun _ => ∀ t ∈ a.values, o.Knows d p t) (Defect d p) :=
  Meets.mapM fun _ ht => arg_meets hs ho hsc (Or.inl ⟨a, ha, ht⟩)

theorem atom_meets {a : Definition.Atom Term} (ha : o.HasAtom a) : Meets (sc.atom s a)
    (fun _ => Declares (declarations d p .predicate) a ∧ ∀ t ∈ a.values, o.Knows d p t) (Defect d p) := by
  refine (predicate_meets hs ho ha).bind fun q hq => ?_
  exact (args_meets hs ho hsc (Or.inl ha)).bind fun args hargs => ⟨hq, hargs⟩

theorem taskRef_meets {a : Definition.Atom Term} (ha : o.HasTask a) : Meets (sc.task s a)
    (fun _ => Declares (declarations d p .task) a ∧ ∀ t ∈ a.values, o.Knows d p t) (Defect d p) := by
  refine (task_meets hs ho ha).bind fun q hq => ?_
  exact (args_meets hs ho hsc (Or.inr ha)).bind fun args hargs => ⟨hq, hargs⟩

end

/-- All that the formula refers to is declared. -/
structure Covers (d : Domain) (p : Problem) (o : Operator) (f : Formula) : Prop where
  atoms : ∀ a, (Formula.atom a).Within f →
    Declares (declarations d p .predicate) a ∧ ∀ t ∈ a.values, o.Knows d p t
  equalities : ∀ x y, (Formula.equal x y).Within f → o.Knows d p x ∧ o.Knows d p y

namespace Covers

variable {f g : Formula} {fs : List Formula}

theorem atom {a : Definition.Atom Term}
    (h : Declares (declarations d p .predicate) a ∧ ∀ t ∈ a.values, o.Knows d p t) : Covers d p o (.atom a) := by
  constructor
  · intro b hb
    cases hb
    exact h
  · intro x y hxy
    cases hxy

theorem conj (h : ∀ f ∈ fs, Covers d p o f) : Covers d p o (.conj fs) := by
  constructor
  · intro a ha
    cases ha with
    | conj hmem ha => exact (h _ hmem).atoms a ha
  · intro x y hxy
    cases hxy with
    | conj hmem hxy => exact (h _ hmem).equalities x y hxy

theorem disj (h : ∀ f ∈ fs, Covers d p o f) : Covers d p o (.disj fs) := by
  constructor
  · intro a ha
    cases ha with
    | disj hmem ha => exact (h _ hmem).atoms a ha
  · intro x y hxy
    cases hxy with
    | disj hmem hxy => exact (h _ hmem).equalities x y hxy

theorem neg (h : Covers d p o f) : Covers d p o (.neg f) := by
  constructor
  · intro a ha
    cases ha with
    | neg ha => exact h.atoms a ha
  · intro x y hxy
    cases hxy with
    | neg hxy => exact h.equalities x y hxy

theorem imply (hf : Covers d p o f) (hg : Covers d p o g) : Covers d p o (.imply f g) := by
  constructor
  · intro a ha
    cases ha with
    | premise ha => exact hf.atoms a ha
    | conclusion ha => exact hg.atoms a ha
  · intro x y hxy
    cases hxy with
    | premise hxy => exact hf.equalities x y hxy
    | conclusion hxy => exact hg.equalities x y hxy

theorem equal {x y : Term} (hx : o.Knows d p x) (hy : o.Knows d p y) : Covers d p o (.equal x y) := by
  constructor
  · intro a ha
    cases ha
  · intro x' y' hxy
    cases hxy
    exact ⟨hx, hy⟩

end Covers

theorem formulas_eq_mapM (sc : Scope) (s : Symbols) (fs : List Formula) :
    sc.formulas s fs = fs.mapM (sc.formula s) := by
  induction fs with
  | nil => rw [formulas, List.mapM_nil]; rfl
  | cons f fs ih => rw [formulas, List.mapM_cons, ih]

theorem formula_meets (hs : Naming.Complete d p s) (ho : o ∈ operators d p) (hsc : sc.Of o) {f : Formula}
    (hf : ∃ g ∈ o.formulas, f.Within g) : Meets (sc.formula s f) (fun _ => Covers d p o f) (Defect d p) := by
  have hpart : ∀ f' : Formula, f'.Within f → ∃ g ∈ o.formulas, f'.Within g := fun f' hf' =>
    hf.imp fun g hg => ⟨hg.1, hf'.trans hg.2⟩
  induction f using Formula.induct with
  | atom a =>
      rw [formula]
      exact (atom_meets hs ho hsc (Or.inr hf)).map fun _ h => .atom h
  | conj fs ih =>
      rw [formula, formulas_eq_mapM]
      refine Meets.map (Meets.mapM fun f hf => ih f hf (hpart f (.conj hf .self)) ?_) fun _ h => .conj h
      exact fun f' hf' => hpart f' (.conj hf hf')
  | disj fs ih =>
      rw [formula, formulas_eq_mapM]
      refine Meets.map (Meets.mapM fun f hf => ih f hf (hpart f (.disj hf .self)) ?_) fun _ h => .disj h
      exact fun f' hf' => hpart f' (.disj hf hf')
  | neg f ih =>
      rw [formula]
      exact (ih (hpart f (.neg .self)) fun f' hf' => hpart f' (.neg hf')).map fun _ h => .neg h
  | imply f g ihf ihg =>
      rw [formula]
      refine (ihf (hpart f (.premise .self)) fun f' hf' => hpart f' (.premise hf')).bind fun _ hfirst => ?_
      exact (ihg (hpart g (.conclusion .self)) fun f' hf' => hpart f' (.conclusion hf')).bind fun _ hsecond =>
        .imply hfirst hsecond
  | equal x y =>
      obtain ⟨g, hg, hwithin⟩ := hf
      rw [formula]
      refine (arg_meets hs ho hsc (Or.inr ⟨g, hg, x, y, hwithin, Or.inl rfl⟩)).bind fun _ hx => ?_
      exact (arg_meets hs ho hsc (Or.inr ⟨g, hg, x, y, hwithin, Or.inr rfl⟩)).bind fun _ hy => .equal hx hy

section

variable (hs : Naming.Complete d p s) (ho : o ∈ operators d p) (hsc : sc.Of o)

include hs ho hsc

theorem condition_meets : Meets (sc.condition s o.formulas) (fun _ => ∀ f ∈ o.formulas, Covers d p o f)
    (Defect d p) := by
  rw [condition, formulas_eq_mapM]
  exact Meets.map (Meets.mapM fun f hf => formula_meets hs ho hsc ⟨f, hf, .self⟩) fun _ h => h

theorem effects_meets (es : List Definition.Effect) (hes : o.atoms = es.map (·.atom)) : Meets (sc.effects s es)
    (fun _ => ∀ a ∈ o.atoms, Declares (declarations d p .predicate) a ∧ ∀ t ∈ a.values, o.Knows d p t)
    (Defect d p) := by
  refine Meets.map (Meets.mapM (P := fun e => Declares (declarations d p .predicate) e.atom ∧
    ∀ t ∈ e.atom.values, o.Knows d p t) fun e he => ?_) fun _ h a ha => ?_
  · have hatom : o.HasAtom e.atom := Or.inl (hes ▸ List.mem_map_of_mem he)
    cases e with
    | add a => exact (atom_meets hs ho hsc hatom).map fun _ h => h
    | delete a => exact (atom_meets hs ho hsc hatom).map fun _ h => h
  · rw [hes] at ha
    obtain ⟨e, he, rfl⟩ := List.mem_map.mp ha
    exact h e he

omit hs in
theorem position_meets {q : String × String} {label : String} (hq : q ∈ o.network.ordering)
    (hlabel : label = q.1 ∨ label = q.2) :
    Meets (sc.position o.network.subtasks label) (fun _ => o.HasLabel label) (Defect d p) := by
  rw [position]
  cases hlast : (positions (·.label == some label) o.network.subtasks).getLast? with
  | some i =>
      obtain ⟨t, ht, hlabel⟩ := mem_positions.mp (List.mem_of_getLast? hlast)
      exact ⟨t, List.mem_of_getElem? ht, by simpa using hlabel⟩
  | none =>
      refine hsc.name ▸ Defect.unknownLabel ho hq hlabel ?_
      rintro ⟨t, ht, htlabel⟩
      obtain ⟨i, hi⟩ := List.mem_iff_getElem?.mp ht
      have hmem : i ∈ positions (·.label == some label) o.network.subtasks :=
        mem_positions.mpr ⟨t, hi, by simpa using htlabel⟩
      rw [List.getLast?_eq_none_iff.mp hlast] at hmem
      exact absurd hmem List.not_mem_nil

omit hs in
theorem precedence_meets {q : String × String} (hq : q ∈ o.network.ordering) :
    Meets (sc.precedence o.network.subtasks q) (fun _ => q.1 ≠ q.2 ∧ o.HasLabel q.1 ∧ o.HasLabel q.2)
      (Defect d p) := by
  rw [precedence]
  by_cases hsame : q.1 = q.2
  · rw [if_pos hsame]
    exact hsc.name ▸ Defect.orderedToItself ho hq hsame
  · rw [if_neg hsame]
    refine (position_meets ho hsc hq (Or.inl rfl)).bind fun i hi => ?_
    exact (position_meets ho hsc hq (Or.inr rfl)).bind fun j hj => ⟨hsame, hi, hj⟩

theorem network_meets : Meets (sc.network s o.network)
    (fun _ => (∀ t ∈ o.network.subtasks, Declares (declarations d p .task) t.task ∧
        ∀ x ∈ t.task.values, o.Knows d p x) ∧
      ∀ q ∈ o.network.ordering, q.1 ≠ q.2 ∧ o.HasLabel q.1 ∧ o.HasLabel q.2) (Defect d p) := by
  refine Meets.bind (Meets.mapM fun t ht => taskRef_meets hs ho hsc (Or.inr ⟨t, ht, rfl⟩)) fun tasks htasks => ?_
  exact Meets.bind (Meets.mapM fun q hq => precedence_meets ho hsc hq) fun order horder => ⟨htasks, horder⟩

end

end Scope

/-! ### Operators -/

namespace Naming

theorem addParameter_meets (htypes : ∀ name, d.DeclaresType name → name ∈ s.typeNames) {t : Typed}
    (hmentions : Mentions d p t.type) (hrepeated : t.value ∈ sc.names → Defect d p (.conflict .parameter t.value)) :
    Meets (addParameter sc t s) (fun r => s.AddsTypes r.2 ∧ t.value ∉ sc.names ∧ r.1.name = sc.name ∧
      r.1.names = sc.names ++ [t.value]) (Defect d p) := by
  rw [addParameter]
  by_cases hmem : t.value ∈ sc.names
  · rw [if_pos hmem]
    exact hrepeated hmem
  · rw [if_neg hmem]
    exact meets_bind (type_meets htypes hmentions) fun r hr => ⟨Symbols.addsTypes_resolve hr, hmem, rfl, rfl⟩

theorem foldlM_addParameter_meets (ho : o ∈ operators d p)
    (htypes : ∀ name, d.DeclaresType name → name ∈ s.typeNames) (done : List Typed) {rest : List Typed}
    (hparameters : done ++ rest = o.parameters) (hname : sc.name = o.name) (hnames : sc.names = done.map (·.value))
    (hnodup : (done.map (·.value)).Nodup) :
    Meets (rest.foldlM addParameter sc s)
      (fun r => s.AddsTypes r.2 ∧ r.1.Of o ∧ (o.parameters.map (·.value)).Nodup) (Defect d p) := by
  -- the parameters that are done are the names in scope, so one that is found there comes twice
  induction rest generalizing sc s done with
  | nil =>
      rw [List.append_nil] at hparameters
      exact ⟨.refl s, ⟨hname, hparameters ▸ hnames⟩, hparameters ▸ hnodup⟩
  | cons t rest ih =>
      have ht : t ∈ o.parameters := hparameters ▸ List.mem_append_right _ List.mem_cons_self
      rw [List.foldlM_cons]
      refine meets_bind (addParameter_meets htypes (Or.inr ⟨o, ho, t, ht, rfl⟩) fun hmem => ?_) fun r hr => ?_
      · refine .repeatedParameter ho ?_
        have hcount : 0 < (done.map (·.value)).count t.value := List.count_pos_iff.mpr (hnames ▸ hmem)
        rw [← hparameters, List.map_append, List.map_cons, List.duplicate_iff_two_le_count, List.count_append,
          List.count_cons_self]
        omega
      · obtain ⟨hadds, hnew, hscname, hscnames⟩ := hr
        refine (ih (fun name h => hadds.names.subset (htypes name h)) (done ++ [t]) ?_ ?_ ?_ ?_).imp
          fun r' hr' => ⟨hadds.trans hr'.1, hr'.2⟩
        · rw [List.append_assoc, ← hparameters]
          rfl
        · rw [hscname, hname]
        · rw [hscnames, hnames, List.map_append]
          rfl
        · rw [List.map_append]
          exact hnodup.append (List.nodup_singleton _) (List.disjoint_singleton.mpr (hnames ▸ hnew))

theorem scope_meets (htypes : ∀ name, d.DeclaresType name → name ∈ s.typeNames) (ho : o ∈ operators d p) :
    Meets (scope o.name o.parameters s)
      (fun r => s.AddsTypes r.2 ∧ r.1.Of o ∧ (o.parameters.map (·.value)).Nodup) (Defect d p) :=
  foldlM_addParameter_meets ho htypes [] rfl rfl rfl List.nodup_nil

/-- What is said of the parts of an operator says all of it. -/
theorem wellFormed_operator (hparameters : (o.parameters.map (·.value)).Nodup)
    (hatoms : ∀ a ∈ o.atoms, Declares (declarations d p .predicate) a ∧ ∀ t ∈ a.values, o.Knows d p t)
    (hformulas : ∀ f ∈ o.formulas, Scope.Covers d p o f)
    (htasks : ∀ a, o.HasTask a → Declares (declarations d p .task) a ∧ ∀ t ∈ a.values, o.Knows d p t)
    (hordering : ∀ q ∈ o.network.ordering, q.1 ≠ q.2 ∧ o.HasLabel q.1 ∧ o.HasLabel q.2) : o.WellFormed d p := by
  have hatom : ∀ a, o.HasAtom a → Declares (declarations d p .predicate) a ∧ ∀ t ∈ a.values, o.Knows d p t := by
    rintro a (ha | ⟨f, hf, ha⟩)
    · exact hatoms a ha
    · exact (hformulas f hf).atoms a ha
  refine ⟨hparameters, fun a ha => (hatom a ha).1, fun a ha => (htasks a ha).1, fun t ht => ?_, hordering⟩
  rcases ht with ⟨a, ha | ha, ht⟩ | ⟨f, hf, x, y, hwithin, rfl | rfl⟩
  · exact (hatom a ha).2 t ht
  · exact (htasks a ha).2 t ht
  · exact ((hformulas f hf).equalities _ _ hwithin).1
  · exact ((hformulas f hf).equalities _ _ hwithin).2

theorem action_meets (hs : Complete d p s) {a : Definition.Action} (ha : a ∈ d.actions) :
    Meets (action a s) (fun r => Complete d p r.2 ∧ a.operator.WellFormed d p) (Defect d p) := by
  have ho : a.operator ∈ operators d p := List.mem_append_left _ (List.mem_append_left _ (List.mem_map_of_mem ha))
  refine meets_bind (scope_meets hs.types ho) fun r ⟨hadds, hsc, hnodup⟩ => ?_
  have hcomplete := hs.addsTypes hadds
  refine meets_get ?_
  refine meets_lift (Scope.condition_meets hcomplete ho hsc) fun precondition hprecondition => ?_
  refine meets_lift (Scope.effects_meets hcomplete ho hsc a.effects rfl) fun effect heffect => ?_
  obtain ⟨id, -, hid, -⟩ := hcomplete.tasks.recorded a.declaration
    (List.mem_append_right _ (List.mem_map_of_mem ha))
  have hname : r.2.tasks.id? a.name = some id := hid
  rw [hname]
  refine ⟨hcomplete, wellFormed_operator hnodup heffect hprecondition ?_ ?_⟩
  · rintro x (hx | ⟨t, ht, -⟩)
    · exact absurd hx List.not_mem_nil
    · exact absurd ht List.not_mem_nil
  · exact fun q hq => absurd hq List.not_mem_nil

theorem method_meets (hs : Complete d p s) {m : Definition.Method} (hm : m ∈ d.methods) :
    Meets (method m s) (fun r => Complete d p r.2 ∧ m.operator.WellFormed d p) (Defect d p) := by
  have ho : m.operator ∈ operators d p := List.mem_append_left _ (List.mem_append_right _ (List.mem_map_of_mem hm))
  refine meets_bind (scope_meets hs.types ho) fun r ⟨hadds, hsc, hnodup⟩ => ?_
  have hcomplete := hs.addsTypes hadds
  refine meets_get ?_
  refine meets_lift (Scope.taskRef_meets hcomplete ho hsc (Or.inl List.mem_cons_self)) fun task htask => ?_
  refine meets_lift (Scope.condition_meets hcomplete ho hsc) fun precondition hprecondition => ?_
  refine meets_lift (Scope.network_meets hcomplete ho hsc) fun network hnetwork => ?_
  refine ⟨hcomplete, wellFormed_operator hnodup (fun a ha => absurd ha List.not_mem_nil) hprecondition ?_ hnetwork.2⟩
  rintro a (ha | ⟨t, ht, rfl⟩)
  · obtain rfl := List.mem_singleton.mp ha
    exact htask
  · exact hnetwork.1 t ht

theorem initialFacts_meets (hs : Complete d p s) : Meets (initialFacts s p.init)
    (fun _ => ∀ a ∈ p.operator.atoms, Declares (declarations d p .predicate) a ∧
      ∀ t ∈ a.values, p.operator.Knows d p t) (Defect d p) := by
  have ho : p.operator ∈ operators d p := List.mem_append_right _ List.mem_cons_self
  refine Meets.map (Meets.mapM (P := fun a : Definition.Atom String =>
    Declares (declarations d p .predicate) ⟨a.name, a.values.map .name⟩ ∧
      ∀ n ∈ a.values, p.operator.Knows d p (.name n)) fun a ha => ?_) fun _ h b hb => ?_
  · have hatom : p.operator.HasAtom ⟨a.name, a.values.map .name⟩ := Or.inl (List.mem_map_of_mem ha)
    have hpredicate := Scope.predicate_meets hs ho hatom
    rw [List.length_map] at hpredicate
    refine hpredicate.bind fun q hq => ?_
    refine Meets.bind (Meets.mapM fun n hn => Scope.constant_meets hs ho ?_) fun cs hcs => ⟨hq, hcs⟩
    exact Or.inl ⟨_, Or.inl hatom, List.mem_map_of_mem hn⟩
  · obtain ⟨a, ha, rfl⟩ := List.mem_map.mp hb
    refine ⟨(h a ha).1, fun t ht => ?_⟩
    obtain ⟨n, hn, rfl⟩ := List.mem_map.mp ht
    exact (h a ha).2 n hn

/-- What each piece of work keeps, with what it says of its input, holds after all of them. -/
theorem mapM_meets {α β : Type} {f : α → Naming β} {P : α → Prop} {I : Symbols → Prop} {as : List α}
    {E : GroundingError → Prop} (hstep : ∀ a ∈ as, ∀ s, I s → Meets (f a s) (fun r => I r.2 ∧ P a) E) (hs : I s) :
    Meets (as.mapM f s) (fun r => I r.2 ∧ ∀ a ∈ as, P a) E := by
  induction as generalizing s with
  | nil => exact ⟨hs, fun a ha => absurd ha List.not_mem_nil⟩
  | cons a as ih =>
      rw [List.mapM_cons]
      refine meets_bind (hstep a List.mem_cons_self s hs) fun r hr => ?_
      refine meets_bind (ih (fun a ha => hstep a (List.mem_cons_of_mem _ ha)) hr.1) fun r' hr' => ?_
      exact ⟨hr'.1, List.forall_mem_cons.mpr ⟨hr.2, hr'.2⟩⟩

theorem problem_meets (d : Domain) (p : Problem) :
    Meets (problem d p {}) (fun _ => WellFormed d p) (Defect d p) := by
  have ho : p.operator ∈ operators d p := List.mem_append_right _ List.mem_cons_self
  have hsc : Scope.Of p.operator { name := p.name } := ⟨rfl, rfl⟩
  refine meets_bind (declare_meets d p) fun r₀ h₀ => ?_
  refine meets_bind (mapM_meets (fun a ha s hs => action_meets hs ha) h₀) fun r₁ h₁ => ?_
  refine meets_bind (mapM_meets (fun m hm s hs => method_meets hs hm) h₁.1) fun r₂ h₂ => ?_
  refine meets_get ?_
  refine meets_lift (initialFacts_meets h₂.1) fun init hinit => ?_
  refine meets_lift (Scope.condition_meets h₂.1 ho hsc) fun goal hgoal => ?_
  refine meets_lift (Scope.network_meets h₂.1 ho hsc) fun network hnetwork => ?_
  have hproblem : p.operator.WellFormed d p := by
    refine wellFormed_operator List.nodup_nil hinit hgoal ?_ hnetwork.2
    rintro a (ha | ⟨t, ht, rfl⟩)
    · exact absurd ha List.not_mem_nil
    · exact hnetwork.1 t ht
  refine ⟨fun kind x hx y hy hname => ?_, fun o ho => ?_⟩
  · cases kind with
    | constant => exact h₂.1.constants.agree hx hy hname
    | predicate => exact h₂.1.predicates.agree hx hy hname
    | task => exact h₂.1.tasks.agree hx hy hname
    | parameter => exact absurd hx List.not_mem_nil
  · rcases List.mem_append.mp ho with ho | ho
    · rcases List.mem_append.mp ho with ho | ho
      · obtain ⟨a, ha, rfl⟩ := List.mem_map.mp ho
        exact h₁.2 a ha
      · obtain ⟨m, hm, rfl⟩ := List.mem_map.mp ho
        exact h₂.2 m hm
    · obtain rfl := List.mem_singleton.mp ho
      exact hproblem

theorem initialFacts_of_problem {s' : Symbols} {L : LiftedProblem} (h : problem d p {} = .ok (L, s')) :
    initialFacts L.symbols p.init = .ok L.init := by
  obtain ⟨-, s₁, s₂, hparts⟩ := problem_eq_ok.mp h
  exact hparts.init

end Naming

theorem lt_size_of_initialFacts {init : List (Definition.Atom String)} {facts : List Fact}
    (h : initialFacts s init = .ok facts) : ∀ f ∈ facts, ∀ c ∈ f.args, c < s.constants.size := by
  obtain ⟨fs, hfs, rfl⟩ := Except.map_eq_ok.mp h
  intro f hf c hc
  obtain ⟨a, -, ha⟩ := (Except.mapM_eq_ok hfs).2 f (List.mem_eraseDups.mp hf)
  obtain ⟨n, -, hn⟩ := (Except.mapM_eq_ok (initialFact_eq_ok.mp ha).2).2 c hc
  exact lt_size_of_knownConstant hn

theorem ofDefinitions_meets (d : Domain) (p : Problem) :
    Meets (LiftedProblem.ofDefinitions (some d) (some p)) (fun _ => WellFormed d p) (Defect d p) :=
  (Naming.problem_meets d p).map fun _ h => h

/-- A domain and a problem that are accepted are well formed: whatever an operator or the problem refers to is declared or
is a parameter, with as many arguments as it takes, no operator has a parameter twice, declarations of one name have
the same types, and orderings are of two labels that there are. The result may be relied on by its ids. An error tells
of what is wrong. Where nothing is wrong but types, there is a result or a type that is unknown. -/
theorem ofDefinitions_accepts_wellFormed (d : Domain) (p : Problem) :
    (∀ L, LiftedProblem.ofDefinitions (some d) (some p) = .ok L →
      WellFormed d p ∧ L.WellFormed ∧ ∀ f ∈ L.init, ∀ c ∈ f.args, c < L.symbols.constants.size) ∧
    (∀ e, LiftedProblem.ofDefinitions (some d) (some p) = .error e → Defect d p e) ∧
    (WellFormed d p → (∃ L, LiftedProblem.ofDefinitions (some d) (some p) = .ok L) ∨
      ∃ name, LiftedProblem.ofDefinitions (some d) (some p) = .error (.unknownType name)) := by
  have hmeets := ofDefinitions_meets d p
  refine ⟨fun L hL => ⟨?_, LiftedProblem.wellFormed_of_ofDefinitions hL, ?_⟩, fun e he => ?_, fun hwf => ?_⟩
  · rwa [hL] at hmeets
  · obtain ⟨⟨L, s⟩, hproblem, rfl⟩ := Except.map_eq_ok.mp hL
    exact lt_size_of_initialFacts (Naming.initialFacts_of_problem hproblem)
  · rwa [he] at hmeets
  · cases hL : LiftedProblem.ofDefinitions (some d) (some p) with
    | ok L => exact Or.inl ⟨L, rfl⟩
    | error e =>
        rw [hL] at hmeets
        obtain ⟨name, rfl⟩ := hwf.unknownType_of_defect hmeets
        exact Or.inr ⟨name, rfl⟩

/-- A constant is declared twice, by two spellings of one union. -/
def unionDomain : Domain where
  name := "union"
  types := [⟨"box", .object⟩, ⟨"crate", .exactly "box"⟩]
  constants := [⟨"c", .eitherOf ["box", "crate"]⟩, ⟨"c", .eitherOf ["crate", "box"]⟩]
  predicates := [⟨"full", [⟨"x", .eitherOf ["crate", "box"]⟩]⟩]

/-- The name of a predicate is deep inside the goal. -/
def unionProblem (name : String) : Problem where
  name := "full box"
  domain := "union"
  init := [⟨"full", ["c"]⟩]
  goal := [.neg (.conj [.disj [.atom ⟨name, [.name "c"]⟩]])]

theorem ofDefinitions_accepts_wellFormed_union :
    WellFormed unionDomain (unionProblem "full") ∧
    LiftedProblem.ofDefinitions (some unionDomain) (some (unionProblem "empty")) = .error (.unknownPredicate "empty") ∧
    Defect unionDomain (unionProblem "empty") (.unknownPredicate "empty") := by
  obtain ⟨L, hL, -⟩ : ∃ L, LiftedProblem.ofDefinitions (some unionDomain) (some (unionProblem "full")) = .ok L ∧
      L.symbols.typeNames = ["object", "box", "crate", "either~box~crate"] := exists_ok_of_any (by decide +kernel)
  have hempty : LiftedProblem.ofDefinitions (some unionDomain) (some (unionProblem "empty")) =
      .error (.unknownPredicate "empty") := eq_error_of_all (by decide +kernel)
  exact ⟨((ofDefinitions_accepts_wellFormed _ _).1 L hL).1, hempty,
    (ofDefinitions_accepts_wellFormed _ _).2.1 _ hempty⟩

end HtnPlanner
