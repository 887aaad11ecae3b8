import HtnPlanner.Proofs.Lifted.Defects
import HtnPlanner.Proofs.Lifted.Naming
import HtnPlanner.Proofs.Symbols.Stability

/-!
The tables of symbols have what a domain and a problem declare, with the types of the table of types, or something is
wrong with a declaration. The types that are declared and the unions that are referred to come up in one order.
-/

namespace HtnPlanner

open Definition

/-- The work succeeds, with a result that `Q` holds of, or it fails, with an error that `E` holds of. -/
def Meets {ε α : Type} (x : Except ε α) (Q : α → Prop) (E : ε → Prop) : Prop :=
  match x with
  | .ok a => Q a
  | .error e => E e

namespace Meets

variable {ε α β : Type} {x : Except ε α} {f : α → Except ε β} {Q Q' : α → Prop} {R : β → Prop} {E : ε → Prop}

theorem of_ok (hx : ∀ e, x = .error e → E e) : Meets x (fun a => x = .ok a) E := by
  cases x with
  | ok a => rfl
  | error e => exact hx e rfl

theorem imp (h : Meets x Q E) (hq : ∀ a, Q a → Q' a) : Meets x Q' E := by
  cases x with
  | ok a => exact hq a h
  | error e => exact h

theorem bind (h : Meets x Q E) (hf : ∀ a, Q a → Meets (f a) R E) : Meets (x >>= f) R E := by
  cases x with
  | ok a => exact hf a h
  | error e => exact h

theorem map {g : α → β} (h : Meets x Q E) (hg : ∀ a, Q a → R (g a)) : Meets (x.map g) R E := by
  cases x with
  | ok a => exact hg a h
  | error e => exact h

theorem mapM {as : List α} {P : α → Prop} (h : ∀ a ∈ as, Meets (f a) (fun _ => P a) E) :
    Meets (as.mapM f) (fun _ => ∀ a ∈ as, P a) E := by
  induction as with
  | nil => exact fun a ha => absurd ha List.not_mem_nil
  | cons a as ih =>
      rw [List.mapM_cons]
      refine (h a List.mem_cons_self).bind fun b ha => ?_
      refine (ih fun a ha => h a (List.mem_cons_of_mem _ ha)).bind fun bs has => ?_
      exact List.forall_mem_cons.mpr ⟨ha, has⟩

end Meets

/-! ### The types that are there -/

namespace Symbols

variable {s s' : Symbols} {ref : TypeRef} {refs : List TypeRef} {t : Nat}

/-- Only types were added, after those that were there. -/
structure AddsTypes (s s' : Symbols) : Prop extends s.Extends s' where
  names : s.typeNames <+: s'.typeNames

theorem AddsTypes.refl (s : Symbols) : s.AddsTypes s := ⟨.refl s, List.prefix_rfl⟩

theorem AddsTypes.trans {s'' : Symbols} (h : s.AddsTypes s') (h' : s'.AddsTypes s'') : s.AddsTypes s'' :=
  ⟨h.toExtends.trans h'.toExtends, h.names.trans h'.names⟩

theorem addsTypes_resolve (h : s.resolve ref = .ok (t, s')) : s.AddsTypes s' :=
  ⟨(follows_resolve h).1.toExtends, (Grows.resolve h).types.kept⟩

theorem grows_resolveAll (s : Symbols) (refs : List TypeRef) : s.Grows (s.resolveAll refs) := by
  induction refs generalizing s with
  | nil => exact .refl s
  | cons ref refs ih => exact (Grows.apply s (.resolve ref)).trans (ih _)

theorem grows_declareAllTypes (s : Symbols) (names : List String) : s.Grows (s.declareAllTypes names) := by
  induction names generalizing s with
  | nil => exact .refl s
  | cons name names ih => exact (Grows.declareType name s).trans (ih _)

theorem typeOf_of_resolve (hs : s'.typeNames.Nodup) {s₁ : Symbols} (h : s.resolve ref = .ok (t, s₁))
    (hlater : s₁.typeNames <+: s'.typeNames) : s'.typeOf ref = .ok t := by
  rw [typeOf, resolve_of_refersTo hs ((refersTo_resolve h).of_isPrefix hlater)]
  rfl

/-! Types are found by the names of the types alone. -/

theorem typeNames_declareUnion (members : List Nat) (s : Symbols) : (s.declareUnion members).2.typeNames =
    if (s.unionMembers members).length = 1 ∨ s.unionName (s.unionMembers members) ∈ s.typeNames then s.typeNames
    else s.typeNames ++ [s.unionName (s.unionMembers members)] := by
  rcases declareUnion_cases members s with ⟨t, heq, hsingle | ⟨-, hname⟩⟩ | ⟨hone, hid, -, hnames, -⟩
  · rw [heq, if_pos (Or.inl (by rw [hsingle, List.length_singleton]))]
  · rw [heq, if_pos (Or.inr (List.mem_of_getElem? hname))]
  · rw [hnames, if_neg (not_or.mpr ⟨hone, not_mem_typeNames_of_typeId? hid⟩)]

theorem knownType_congr (h : s.typeNames = s'.typeNames) : s.knownType = s'.knownType := by
  funext name
  rw [knownType, knownType, typeId?_eq_findIdx?, typeId?_eq_findIdx?, h]

theorem typeNames_declareUnion_congr (h : s.typeNames = s'.typeNames) (members : List Nat) :
    (s.declareUnion members).2.typeNames = (s'.declareUnion members).2.typeNames := by
  have hmembers : s.unionMembers members = s'.unionMembers members := by
    rw [unionMembers, unionMembers, ← length_typeNames, ← length_typeNames, h]
  have hname : s.unionName = s'.unionName := by
    funext ts
    rw [unionName, unionName, List.map_congr_left fun t _ => by rw [typeName_eq_getElem?, h, ← typeName_eq_getElem?]]
  rw [typeNames_declareUnion, typeNames_declareUnion, hmembers, hname, h]

theorem typeNames_resolve_congr (h : s.typeNames = s'.typeNames) (ref : TypeRef) :
    (s.after (s.resolve ref)).typeNames = (s'.after (s'.resolve ref)).typeNames := by
  cases ref with
  | exactly name =>
      rw [resolve, resolve, knownType_congr h]
      cases s'.knownType name <;> exact h
  | eitherOf names =>
      rw [resolve, resolve, knownType_congr h]
      cases names.mapM s'.knownType with
      | error e => exact h
      | ok ids =>
          cases ids with
          | nil => exact h
          | cons t ts => exact typeNames_declareUnion_congr h (t :: ts)

theorem typeNames_resolveAll_congr (h : s.typeNames = s'.typeNames) (refs : List TypeRef) :
    (s.resolveAll refs).typeNames = (s'.resolveAll refs).typeNames := by
  induction refs generalizing s s' with
  | nil => exact h
  | cons ref refs ih => exact ih (typeNames_resolve_congr h ref)

end Symbols

/-! ### Tables of declarations -/

theorem Catalog.id?_append {α : Type} (c : Catalog α) (n name : String) (d : α) :
    Catalog.id? ⟨c.entries ++ [(n, d)]⟩ name = (c.id? name).or (if n = name then some c.size else none) := by
  rw [id?, List.findIdx?_append, id?, size]
  by_cases h : n = name <;> simp [h]

/-- The table has the names that were declared so far, with types as they were declared. `view` reads the types off a
definition, and whether it is primitive. -/
structure Records {α : Type} (s : Symbols) (view : α → List Nat × Bool) (all xs : List Declaration) (c : Catalog α) :
    Prop where
  subset : xs ⊆ all
  recorded : ∀ x ∈ xs, ∃ id d, c.id? x.name = some id ∧ c.definition? id = some d ∧
    x.types.mapM s.typeOf = .ok (view d).1 ∧ x.primitive = (view d).2
  declared : ∀ name id, c.id? name = some id → ∃ x ∈ xs, x.name = name

namespace Records

variable {α : Type} {s : Symbols} {view : α → List Nat × Bool} {all xs : List Declaration} {x y : Declaration}
  {c c' : Catalog α} {id : Nat} {d : α}

theorem empty : Records s view all [] {} :=
  ⟨List.nil_subset _, fun x hx => absurd hx List.not_mem_nil, fun name id hid => by simp [Catalog.id?] at hid⟩

theorem exists_declared (h : Records s view all xs c) {name : String} (hid : c.id? name = some id) :
    ∃ x ∈ xs, x.name = name ∧ ∃ d, c.definition? id = some d ∧ x.types.mapM s.typeOf = .ok (view d).1 ∧
      x.primitive = (view d).2 := by
  obtain ⟨x, hx, rfl⟩ := h.declared name id hid
  obtain ⟨id', d, hid', hd⟩ := h.recorded x hx
  obtain rfl : id' = id := Option.some.inj (hid'.symm.trans hid)
  exact ⟨x, hx, rfl, d, hd⟩

theorem declare? [DecidableEq α] (h : Records s view all xs c) (hmem : x ∈ all)
    (hx : x.types.mapM s.typeOf = .ok (view d).1) (hprimitive : x.primitive = (view d).2) (hd : c.declare? x.name d = some (id, c')) :
    Records s view all (xs ++ [x]) c' := by
  obtain ⟨hid, hdefinition, hkept⟩ := Catalog.declare?_eq_some hd
  refine ⟨List.append_subset.mpr ⟨h.subset, by simpa using hmem⟩, fun y hy => ?_, fun name i hi => ?_⟩
  · rcases List.mem_append.mp hy with hy | hy
    · obtain ⟨i, e, hi, he, hview⟩ := h.recorded y hy
      obtain ⟨hi, he⟩ := hkept _ _ _ hi he
      exact ⟨i, e, hi, he, hview⟩
    · obtain rfl := List.mem_singleton.mp hy
      exact ⟨id, d, hid, hdefinition, hx, hprimitive⟩
  · by_cases hname : x.name = name
    · exact ⟨x, List.mem_append_right _ List.mem_cons_self, hname⟩
    · have hold : c.id? name = some i := by
        rcases Catalog.declare?_cases hd with ⟨-, -, rfl⟩ | ⟨-, -, hentries⟩
        · exact hi
        · have hc' : c' = ⟨c.entries ++ [(x.name, d)]⟩ := congrArg Catalog.mk hentries
          rwa [hc', Catalog.id?_append, if_neg hname, Option.or_none] at hi
      obtain ⟨y, hy, hyname⟩ := h.declared name i hold
      exact ⟨y, List.mem_append_left _ hy, hyname⟩

/-- A declaration that is refused differs from one that was there before. -/
theorem differs_of_declare? [DecidableEq α] (h : Records s view all xs c) (hview : view.Injective)
    (hx : x.types.mapM s.typeOf = .ok (view d).1) (hprimitive : x.primitive = (view d).2)
    (hd : c.declare? x.name d = none) : ∃ y ∈ all, y.name = x.name ∧ y.Differs s x := by
  rw [Catalog.declare?] at hd
  cases hid : c.id? x.name with
  | none => simp [hid] at hd
  | some i =>
      obtain ⟨y, hy, hname, e, he, htypes, hyprimitive⟩ := h.exists_declared hid
      have hne : e ≠ d := by
        rintro rfl
        simp [hid, he] at hd
      refine ⟨y, h.subset hy, hname, ?_⟩
      by_cases hp : (view e).2 = (view d).2
      · refine Or.inr ⟨_, _, htypes, hx, fun ht => hne (hview (Prod.ext ht hp))⟩
      · exact Or.inl (by rwa [hyprimitive, hprimitive])

theorem agree (h : Records s view all xs c) (hx : x ∈ xs) (hy : y ∈ xs) (hname : x.name = y.name) : ¬x.Differs s y := by
  obtain ⟨i, d, hi, hd, hxtypes, hxprimitive⟩ := h.recorded x hx
  obtain ⟨j, e, hj, he, hytypes, hyprimitive⟩ := h.recorded y hy
  obtain rfl : i = j := Option.some.inj (hi.symm.trans (hname ▸ hj))
  obtain rfl : d = e := Option.some.inj (hd.symm.trans he)
  rintro (hprimitive | ⟨ts, us, hts, hus, hne⟩)
  · exact hprimitive (hxprimitive.trans hyprimitive.symm)
  · have hts' := Except.ok.inj (hts.symm.trans hxtypes)
    have hus' := Except.ok.inj (hus.symm.trans hytypes)
    exact hne (hts'.trans hus'.symm)

theorem not_declared (h : Records s view all xs c) {name : String} (hid : c.id? name = none) :
    ∀ x ∈ xs, x.name ≠ name := by
  rintro x hx rfl
  obtain ⟨i, _, hi, -⟩ := h.recorded x hx
  simp [hid] at hi

/-- All declarations of a name have as many types as there are in its definition. -/
theorem length_types (h : Records s view all xs c) (hx : x ∈ xs) (hid : c.id? x.name = some id)
    (hd : c.definition? id = some d) : x.types.length = (view d).1.length := by
  obtain ⟨i, e, hi, he, htypes, -⟩ := h.recorded x hx
  obtain rfl : i = id := Option.some.inj (hi.symm.trans hid)
  obtain rfl : e = d := Option.some.inj (he.symm.trans hd)
  exact (Except.mapM_eq_ok htypes).1.symm

end Records

/-! ### The declarations, one after another -/

variable {d : Domain} {p : Problem} {cs ps ts : List Declaration} {ref : TypeRef} {rest : List TypeRef} {s s' : Symbols}

theorem nodup_typeTable (d : Domain) (p : Problem) : (typeTable d p).typeNames.Nodup := by
  have hstart : Symbols.Distinct {} := ⟨by decide, List.nodup_nil, List.nodup_nil, List.nodup_nil⟩
  exact ((((Symbols.grows_declareAllTypes {} _).trans (Symbols.grows_declareAllTypes _ _)).trans
    (Symbols.grows_resolveAll _ _)).distinct hstart).types

/-- The tables have the declarations `cs` of constants, `ps` of predicates and `ts` of tasks. -/
structure Tables (d : Domain) (p : Problem) (cs ps ts : List Declaration) (s : Symbols) : Prop where
  types : ∀ name, d.DeclaresType name → name ∈ s.typeNames
  constants : Records (typeTable d p) (fun t => ([t], false)) (declarations d p .constant) cs s.constants
  predicates : Records (typeTable d p) (·, false) (declarations d p .predicate) ps s.predicates
  tasks : Records (typeTable d p) (fun e => (e.parameters, e.primitive)) (declarations d p .task) ts s.tasks

/-- After the types that are left, there are all types of the table. -/
structure Stage (d : Domain) (p : Problem) (cs ps ts : List Declaration) (rest : List TypeRef) (s : Symbols) : Prop
    extends Tables d p cs ps ts s where
  ahead : (s.resolveAll rest).typeNames = (typeTable d p).typeNames

theorem Tables.addsTypes (h : Tables d p cs ps ts s) (hs : s.AddsTypes s') : Tables d p cs ps ts s' where
  types name hname := hs.names.subset (h.types name hname)
  constants := by rw [hs.constants]; exact h.constants
  predicates := by rw [hs.predicates]; exact h.predicates
  tasks := by rw [hs.tasks]; exact h.tasks

theorem Stage.resolve {t : Nat} (h : Stage d p cs ps ts (ref :: rest) s) (hr : s.resolve ref = .ok (t, s')) :
    Stage d p cs ps ts rest s' ∧ (typeTable d p).typeOf ref = .ok t := by
  have hstep : s.resolveAll (ref :: rest) = s'.resolveAll rest := by
    rw [Symbols.resolveAll, List.foldl_cons, hr]
    rfl
  have hahead : (s'.resolveAll rest).typeNames = (typeTable d p).typeNames := hstep ▸ h.ahead
  refine ⟨⟨h.addsTypes (Symbols.addsTypes_resolve hr), hahead⟩, ?_⟩
  exact Symbols.typeOf_of_resolve (nodup_typeTable d p) hr (hahead ▸ (Symbols.grows_resolveAll s' rest).types.kept)

theorem Stage.of_typeNames (h : Stage d p cs ps ts rest s) {cs' ps' ts' : List Declaration}
    (hnames : s'.typeNames = s.typeNames)
    (hconstants : Records (typeTable d p) (fun t => ([t], false)) (declarations d p .constant) cs' s'.constants)
    (hpredicates : Records (typeTable d p) (·, false) (declarations d p .predicate) ps' s'.predicates)
    (htasks : Records (typeTable d p) (fun e => (e.parameters, e.primitive)) (declarations d p .task) ts' s'.tasks) :
    Stage d p cs' ps' ts' rest s' where
  types name hname := hnames ▸ h.types name hname
  constants := hconstants
  predicates := hpredicates
  tasks := htasks
  ahead := (Symbols.typeNames_resolveAll_congr hnames rest).trans h.ahead

theorem Symbols.exists_unknown_of_resolve {e : GroundingError} (h : s.resolve ref = .error e) :
    ∃ name ∈ ref.names, s.typeId? name = none ∧ e = .unknownType name := by
  have hknown : ∀ name, s.knownType name = .error e → s.typeId? name = none ∧ e = .unknownType name := by
    intro name he
    rw [knownType] at he
    cases hid : s.typeId? name with
    | some t => simp [hid] at he
    | none =>
        rw [hid] at he
        exact ⟨rfl, (Except.error.inj he).symm⟩
  cases ref with
  | exactly name => exact ⟨name, List.mem_singleton_self name, hknown name (Except.map_eq_error.mp h)⟩
  | eitherOf names =>
      rcases Except.bind_eq_error.mp h with he | ⟨ids, -, he⟩
      · obtain ⟨name, hname, he⟩ := Except.exists_of_mapM_eq_error he
        exact ⟨name, hname, hknown name he⟩
      · cases ids <;> cases he

namespace Naming

variable {α β : Type} {E : GroundingError → Prop}

theorem meets_bind {x : Naming α} {f : α → Naming β} {Q : α × Symbols → Prop} {R : β × Symbols → Prop}
    (hx : Meets (x s) Q E) (hf : ∀ r, Q r → Meets (f r.1 r.2) R E) : Meets ((x >>= f) s) R E :=
  hx.bind hf

theorem meets_lift {x : Except GroundingError α} {f : α → Naming β} {Q : α → Prop} {R : β × Symbols → Prop}
    (hx : Meets x Q E) (hf : ∀ a, Q a → Meets (f a s) R E) : Meets ((liftM x >>= f) s) R E := by
  cases x with
  | ok a => exact hf a hx
  | error e => exact hx

theorem meets_modify {g : Symbols → Symbols} {f : Unit → Naming β} {R : β × Symbols → Prop}
    (hf : Meets (f () (g s)) R E) : Meets ((modify g >>= f) s) R E := hf

theorem meets_get {f : Symbols → Naming β} {R : β × Symbols → Prop} (hf : Meets (f s s) R E) :
    Meets ((get >>= f) s) R E := hf

theorem type_meets (htypes : ∀ name, d.DeclaresType name → name ∈ s.typeNames) (href : Mentions d p ref) :
    Meets (type ref s) (fun r => s.resolve ref = .ok r) (Defect d p) := by
  refine Meets.of_ok fun e he => ?_
  obtain ⟨name, hname, hid, rfl⟩ := Symbols.exists_unknown_of_resolve he
  exact .unknownType href hname fun hdeclared =>
    absurd (htypes name hdeclared) (Symbols.not_mem_typeNames_of_typeId? hid)

theorem types_meets {typed : List Typed} (hmentions : ∀ t ∈ typed, Mentions d p t.type)
    (h : Stage d p cs ps ts (typed.map (·.type) ++ rest) s) :
    Meets (types typed s) (fun r => Stage d p cs ps ts rest r.2 ∧
      (typed.map (·.type)).mapM (typeTable d p).typeOf = .ok r.1) (Defect d p) := by
  induction typed generalizing s with
  | nil => exact ⟨h, rfl⟩
  | cons t typed ih =>
      rw [types, List.mapM_cons]
      refine meets_bind (type_meets h.types (hmentions t List.mem_cons_self)) fun r hr => ?_
      obtain ⟨hstage, ht⟩ := h.resolve hr
      refine meets_bind (ih (fun t ht => hmentions t (List.mem_cons_of_mem _ ht)) hstage) fun r' hr' => ?_
      refine ⟨hr'.1, ?_⟩
      exact Except.mapM_eq_ok_iff.mpr (.cons ht (Except.mapM_eq_ok_iff.mp hr'.2))

theorem declareConstant_meets {t : Typed} (ht : t.declaration ∈ declarations d p .constant)
    (h : Stage d p cs ps ts (t.type :: rest) s) :
    Meets (declareConstant t s) (fun r => Stage d p (cs ++ [t.declaration]) ps ts rest r.2) (Defect d p) := by
  refine meets_bind (type_meets h.types (mentions_of_mem_declarations ht List.mem_cons_self)) fun r hr => ?_
  obtain ⟨hstage, htype⟩ := h.resolve hr
  have htypes : t.declaration.types.mapM (typeTable d p).typeOf = .ok [r.1] :=
    Except.mapM_eq_ok_iff.mpr (.cons htype .nil)
  refine meets_bind (Q := fun r' => Stage d p (cs ++ [t.declaration]) ps ts rest r'.2) ?_ fun _ h => h
  rw [Symbols.declareConstant]
  cases hc : r.2.constants.declare? t.value r.1 with
  | none =>
      obtain ⟨y, hy, hname, hdiffers⟩ := hstage.constants.differs_of_declare? (x := t.declaration)
        (fun a b hab => by simpa using hab) htypes rfl hc
      exact .conflict hy ht hname hdiffers
  | some r' =>
      obtain ⟨id, c⟩ := r'
      have hrecords := hstage.constants.declare? (x := t.declaration) ht htypes rfl hc
      by_cases hid : id < r.2.constants.size
      · obtain rfl := Catalog.eq_of_declare? hc hid
        dsimp only
        rw [if_pos hid]
        exact hstage.of_typeNames rfl hrecords hstage.predicates hstage.tasks
      · -- a constant that is new joins the domains of its types, which leaves the tables as they are
        have hext := Symbols.extends_refresh { r.2 with constants := c }
        dsimp only
        rw [if_neg hid]
        refine hstage.of_typeNames (Symbols.sameTypes_refresh { r.2 with constants := c }).names ?_ ?_ ?_
        · rw [hext.constants]
          exact hrecords
        · rw [hext.predicates]
          exact hstage.predicates
        · rw [hext.tasks]
          exact hstage.tasks

theorem declarePredicate_meets {q : Definition.Predicate} (hq : q.declaration ∈ declarations d p .predicate)
    (h : Stage d p cs ps ts (q.declaration.types ++ rest) s) :
    Meets (declarePredicate q s) (fun r => Stage d p cs (ps ++ [q.declaration]) ts rest r.2) (Defect d p) := by
  have hmentions : ∀ t ∈ q.parameters, Mentions d p t.type := fun t ht =>
    mentions_of_mem_declarations hq (List.mem_map_of_mem ht)
  refine meets_bind (types_meets hmentions h) fun r ⟨hstage, htypes⟩ => ?_
  refine meets_bind (Q := fun r' => Stage d p cs (ps ++ [q.declaration]) ts rest r'.2) ?_ fun _ h => h
  rw [Symbols.declarePredicate]
  cases hc : r.2.predicates.declare? q.name r.1 with
  | none =>
      obtain ⟨y, hy, hname, hdiffers⟩ := hstage.predicates.differs_of_declare? (x := q.declaration)
        (fun a b hab => by simpa using hab) htypes rfl hc
      exact .conflict hy hq hname hdiffers
  | some r' =>
      have hrecords := hstage.predicates.declare? (x := q.declaration) hq htypes rfl hc
      exact hstage.of_typeNames rfl hstage.constants hrecords hstage.tasks

theorem declareTask_meets {x : Declaration} {parameters : List Typed} (hx : x ∈ declarations d p .task)
    (hparameters : x.types = parameters.map (·.type)) (h : Stage d p cs ps ts (x.types ++ rest) s) :
    Meets (declareTask x.name parameters x.primitive s) (fun r => Stage d p cs ps (ts ++ [x]) rest r.2)
      (Defect d p) := by
  have hmentions : ∀ t ∈ parameters, Mentions d p t.type := fun t ht =>
    mentions_of_mem_declarations hx (hparameters ▸ List.mem_map_of_mem ht)
  rw [hparameters] at h
  refine meets_bind (types_meets hmentions h) fun r ⟨hstage, htypes⟩ => ?_
  rw [← hparameters] at htypes
  refine meets_bind (Q := fun r' => Stage d p cs ps (ts ++ [x]) rest r'.2) ?_ fun _ h => h
  rw [Symbols.declareTask]
  have hview : Function.Injective fun e : TaskSignature => (e.parameters, e.primitive) := by
    rintro ⟨us, b⟩ ⟨us', b'⟩ heq
    simpa using heq
  cases hc : r.2.tasks.declare? x.name ⟨r.1, x.primitive⟩ with
  | none =>
      obtain ⟨y, hy, hname, hdiffers⟩ := hstage.tasks.differs_of_declare? hview htypes rfl hc
      exact .conflict hy hx hname hdiffers
  | some r' =>
      have hrecords := hstage.tasks.declare? hx htypes rfl hc
      exact hstage.of_typeNames rfl hstage.constants hstage.predicates hrecords

/-- What each declaration does to the declarations that were taken up and to the types that are left, all do. -/
theorem forM_meets {f : α → Naming Unit} {x : α → Declaration}
    {I : List Declaration → List TypeRef → Symbols → Prop} {as : List α} {xs : List Declaration}
    (hstep : ∀ a ∈ as, ∀ xs rest s, I xs ((x a).types ++ rest) s → Meets (f a s) (fun r => I (xs ++ [x a]) rest r.2) E)
    (hs : I xs ((as.map x).flatMap (·.types) ++ rest) s) :
    Meets (as.forM f s) (fun r => I (xs ++ as.map x) rest r.2) E := by
  induction as generalizing xs s with
  | nil =>
      rw [List.map_nil, List.append_nil]
      exact hs
  | cons a as ih =>
      rw [List.map_cons, List.flatMap_cons, List.append_assoc] at hs
      refine meets_bind (hstep a List.mem_cons_self _ _ s hs) fun r hr => ?_
      have hrest := ih (fun a ha => hstep a (List.mem_cons_of_mem _ ha)) hr
      rwa [List.append_assoc] at hrest

end Naming

/-! ### The types that the domain declares -/

namespace Symbols

theorem typeNames_declareType (name : String) (s : Symbols) : (s.declareType name).2.typeNames =
    if name ∈ s.typeNames then s.typeNames else s.typeNames ++ [name] := by
  cases hid : s.typeId? name with
  | some t => rw [declareType_known hid, if_pos (List.mem_of_getElem? (getElem?_typeNames_of_typeId? hid))]
  | none => rw [(declareType_new hid).2.1, if_neg (not_mem_typeNames_of_typeId? hid)]

theorem typeNames_declareAllTypes_congr (h : s.typeNames = s'.typeNames) (names : List String) :
    (s.declareAllTypes names).typeNames = (s'.declareAllTypes names).typeNames := by
  induction names generalizing s s' with
  | nil => exact h
  | cons name names ih => exact ih (by rw [typeNames_declareType, typeNames_declareType, h])

theorem declareAllTypes_append (s : Symbols) (names names' : List String) :
    s.declareAllTypes (names ++ names') = (s.declareAllTypes names).declareAllTypes names' := List.foldl_append

theorem extends_declareAllTypes (s : Symbols) (names : List String) : s.Extends (s.declareAllTypes names) := by
  induction names generalizing s with
  | nil => exact .refl s
  | cons name names ih => exact (follows_declareType name s).1.toExtends.trans (ih _)

theorem mem_typeNames_declareAllTypes {names : List String} {name : String} (h : name ∈ names) (s : Symbols) :
    name ∈ (s.declareAllTypes names).typeNames := by
  induction names generalizing s with
  | nil => exact absurd h List.not_mem_nil
  | cons n names ih =>
      rcases List.mem_cons.mp h with rfl | h
      · have hname : name ∈ (s.declareType name).2.typeNames := List.mem_of_getElem? (getElem?_declareType name s)
        exact (grows_declareAllTypes _ names).types.kept.subset hname
      · exact ih h _

end Symbols

namespace Naming

theorem declareTypeNames_eq (typed : List Typed) (s : Symbols) :
    declareTypeNames typed s = .ok ((), s.declareAllTypes (typed.map (·.value))) := by
  induction typed generalizing s with
  | nil => rfl
  | cons t typed ih => exact ih (s.declareType t.value).2

/-- Links between types change no names. -/
theorem linkType_eq (t : Typed) (s : Symbols) : ∃ s', linkType t s = .ok ((), s') ∧
    s'.typeNames = (s.declareAllTypes (t.value :: t.type.names)).typeNames ∧ s.Extends s' := by
  have hlinks : ∀ (sub : Nat) (names : List String) (s : Symbols), ∃ s',
      (names.forM fun name => do
        let sup ← modifyGet (Symbols.declareType name)
        modify (Symbols.addSupertype sub sup) : Naming Unit) s = .ok ((), s') ∧
      s'.typeNames = (s.declareAllTypes names).typeNames ∧ s.Extends s' := by
    intro sub names
    induction names with
    | nil => exact fun s => ⟨s, rfl, rfl, .refl s⟩
    | cons name names ih =>
        intro s
        obtain ⟨s', hrun, hnames, hext⟩ := ih ((s.declareType name).2.addSupertype sub (s.declareType name).1)
        refine ⟨s', hrun, hnames.trans ?_, (Symbols.follows_declareType name s).1.toExtends.trans
          ((Symbols.follows_addSupertype _ _ _).toExtends.trans hext)⟩
        exact Symbols.typeNames_declareAllTypes_congr (Symbols.addSupertype_spec _ _ _).1 names
  obtain ⟨s', hrun, hnames, hext⟩ := hlinks (s.declareType t.value).1 t.type.names (s.declareType t.value).2
  exact ⟨s', hrun, hnames, (Symbols.follows_declareType t.value s).1.toExtends.trans hext⟩

theorem forM_linkType_eq (typed : List Typed) (s : Symbols) : ∃ s', typed.forM linkType s = .ok ((), s') ∧
    s'.typeNames = (s.declareAllTypes (typed.flatMap fun t => t.value :: t.type.names)).typeNames ∧ s.Extends s' := by
  induction typed generalizing s with
  | nil => exact ⟨s, rfl, rfl, .refl s⟩
  | cons t typed ih =>
      obtain ⟨s₁, hrun₁, hnames₁, hext₁⟩ := linkType_eq t s
      obtain ⟨s', hrun, hnames, hext⟩ := ih s₁
      refine ⟨s', ?_, hnames.trans ?_, hext₁.trans hext⟩
      · change linkType t s >>= (fun r => typed.forM linkType r.2) = _
        rw [hrun₁]
        exact hrun
      · rw [List.flatMap_cons, Symbols.declareAllTypes_append]
        exact Symbols.typeNames_declareAllTypes_congr hnames₁ _

/-- Once the types are declared, the types of the table are those and the unions that are to come. -/
theorem declareTypes_meets (d : Domain) (p : Problem) :
    Meets (declareTypes d.types {}) (fun r => Stage d p [] [] [] (references d p) r.2) (Defect d p) := by
  obtain ⟨s, hrun, hnames, hext⟩ := forM_linkType_eq d.types (({} : Symbols).declareAllTypes (d.types.map (·.value)))
  have hdeclare : declareTypes d.types {} = .ok ((), s) := by
    change declareTypeNames d.types {} >>= (fun r => d.types.forM linkType r.2) = _
    rw [declareTypeNames_eq]
    exact hrun
  have hstart := (Symbols.extends_declareAllTypes {} (d.types.map (·.value))).trans hext
  rw [hdeclare]
  refine ⟨⟨fun name hname => ?_, ?_, ?_, ?_⟩, Symbols.typeNames_resolveAll_congr hnames _⟩
  · have hkept := (Symbols.grows_declareAllTypes (({} : Symbols).declareAllTypes (d.types.map (·.value)))
      (d.types.flatMap fun t => t.value :: t.type.names)).types.kept
    rw [hnames]
    rcases hname with rfl | ⟨t, ht, hname⟩
    · exact hkept.subset ((Symbols.grows_declareAllTypes {} _).types.kept.subset (by decide))
    · refine Symbols.mem_typeNames_declareAllTypes (List.mem_flatMap.mpr ⟨t, ht, ?_⟩) _
      exact List.mem_cons.mpr hname
  · rw [hstart.constants]
    exact .empty
  · rw [hstart.predicates]
    exact .empty
  · rw [hstart.tasks]
    exact .empty

/-- All that a domain and a problem declare is in the tables in the end. -/
abbrev Complete (d : Domain) (p : Problem) (s : Symbols) : Prop :=
  Tables d p (declarations d p .constant) (declarations d p .predicate) (declarations d p .task) s

theorem references_eq (d : Domain) (p : Problem) : references d p =
    (d.constants.map (·.declaration)).flatMap (·.types) ++ ((p.objects.map (·.declaration)).flatMap (·.types) ++
      ((d.predicates.map (·.declaration)).flatMap (·.types) ++ ((d.tasks.map (·.declaration)).flatMap (·.types) ++
        ((d.actions.map (·.declaration)).flatMap (·.types) ++ [])))) := by
  simp only [references, declarations, List.map_append, List.flatMap_append, List.append_assoc, List.append_nil]

theorem forM_declareConstant_meets {typed : List Typed}
    (hmem : ∀ t ∈ typed, t.declaration ∈ declarations d p .constant)
    (h : Stage d p cs ps ts ((typed.map (·.declaration)).flatMap (·.types) ++ rest) s) :
    Meets (typed.forM declareConstant s) (fun r => Stage d p (cs ++ typed.map (·.declaration)) ps ts rest r.2)
      (Defect d p) :=
  forM_meets (I := fun cs rest s => Stage d p cs ps ts rest s)
    (fun t ht _ _ _ h => declareConstant_meets (hmem t ht) h) h

theorem forM_declarePredicate_meets
    (h : Stage d p cs ps ts ((d.predicates.map (·.declaration)).flatMap (·.types) ++ rest) s) :
    Meets (d.predicates.forM declarePredicate s)
      (fun r => Stage d p cs (ps ++ d.predicates.map (·.declaration)) ts rest r.2) (Defect d p) :=
  forM_meets (I := fun ps rest s => Stage d p cs ps ts rest s)
    (fun _ hq _ _ _ h => declarePredicate_meets (List.mem_map_of_mem hq) h) h

theorem forM_declareTask_meets (h : Stage d p cs ps ts ((d.tasks.map (·.declaration)).flatMap (·.types) ++ rest) s) :
    Meets ((d.tasks.forM fun t => declareTask t.name t.parameters false) s)
      (fun r => Stage d p cs ps (ts ++ d.tasks.map (·.declaration)) rest r.2) (Defect d p) :=
  forM_meets (I := fun ts rest s => Stage d p cs ps ts rest s)
    (fun t ht _ _ _ h =>
      declareTask_meets (x := t.declaration) (List.mem_append_left _ (List.mem_map_of_mem ht)) rfl h) h

theorem forM_declareAction_meets
    (h : Stage d p cs ps ts ((d.actions.map (·.declaration)).flatMap (·.types) ++ rest) s) :
    Meets ((d.actions.forM fun a => declareTask a.name a.parameters true) s)
      (fun r => Stage d p cs ps (ts ++ d.actions.map (·.declaration)) rest r.2) (Defect d p) :=
  forM_meets (I := fun ts rest s => Stage d p cs ps ts rest s)
    (fun a ha _ _ _ h =>
      declareTask_meets (x := a.declaration) (List.mem_append_right _ (List.mem_map_of_mem ha)) rfl h) h

theorem declare_meets (d : Domain) (p : Problem) :
    Meets (declare d p {}) (fun r => Complete d p r.2) (Defect d p) := by
  have hmem : ∀ t ∈ d.constants ++ p.objects, t.declaration ∈ declarations d p .constant := fun t ht =>
    List.mem_map_of_mem ht
  refine meets_bind (declareTypes_meets d p) fun r h => ?_
  rw [references_eq] at h
  refine meets_bind (forM_declareConstant_meets (fun t ht => hmem t (List.mem_append_left _ ht)) h) fun r h => ?_
  refine meets_bind (forM_declareConstant_meets (fun t ht => hmem t (List.mem_append_right _ ht)) h) fun r h => ?_
  have hclosed : Stage d p _ _ _ _ r.2.close :=
    h.of_typeNames (Symbols.sameTypes_close r.2).names h.constants h.predicates h.tasks
  refine meets_modify (meets_bind (forM_declarePredicate_meets hclosed) fun r h => ?_)
  refine meets_bind (forM_declareTask_meets h) fun r h => ?_
  refine (forM_declareAction_meets h).imp fun r h => ?_
  simpa [Complete, declarations] using h.toTables

end Naming

end HtnPlanner
