import HtnPlanner.Proofs.Lookup.Symbols
import HtnPlanner.Proofs.Symbols.Stability
import HtnPlanner.Proofs.Symbols.Tables

/-!
The lists and maps represent the symbols, and an operation in place does to them what is said of the symbols.
-/

namespace HtnPlanner

open Symbols (objectType Change Linked IsType)

namespace SymbolTables

/-- Each list is that of one part of the entries, and each map finds the names. -/
structure Represents (t : SymbolTables) (s : Symbols) : Prop where
  types : t.types.Holds id s.typeNames
  supertypes : t.supertypes = s.above
  domains : t.domains.map (·.toList) = s.types.map (·.domain)
  closed : t.closed = s.closed
  constants : t.constants.Holds id s.constants.names
  constantTypes : t.constantTypes = s.constants.entries.map (·.2)
  predicates : t.predicates.Holds id s.predicates.names
  signatures : t.signatures = s.predicates.entries.map (·.2)
  tasks : t.tasks.Holds id s.tasks.names
  taskSignatures : t.taskSignatures = s.tasks.entries.map (·.2.parameters)
  primitiveTasks : t.primitiveTasks = s.tasks.entries.map (·.2.primitive)
  linked : s.Linked

variable {t t' : SymbolTables} {s s' : Symbols} {name : String} {members : List Nat}

/-! ### Steps -/

namespace InPlace

variable {α β : Type} {x : InPlace α} {f : α → InPlace β} {a : α} {b : β} {e : GroundingError}

theorem bind_ok (h : x t = some (.ok a, t')) : (x >>= f) t = f a t' := by
  change (x t).bind (fun r => ExceptT.bindCont f r.1 r.2) = _
  rw [h]
  rfl

theorem bind_error (h : x t = some (.error e, t')) : (x >>= f) t = some (.error e, t') := by
  change (x t).bind (fun r => ExceptT.bindCont f r.1 r.2) = _
  rw [h]
  rfl

theorem get_bind (f : SymbolTables → InPlace α) (t : SymbolTables) : (get >>= f) t = f t t := rfl

theorem map_eq {r : Except GroundingError α} (h : x t = some (r, t')) (g : α → β) :
    (g <$> x) t = some (r.map g, t') := by
  rw [map_eq_pure_bind]
  cases r with
  | ok a => exact bind_ok h
  | error e => exact bind_error h

theorem find_eq {f? : SymbolTables → Option α} (h : f? t = some a) : find f? t = some (.ok a, t) := by
  rw [find, h]
  rfl

/-- The work comes to an end without an error, and leaves the symbols `s`. -/
def Yields (x : InPlace α) (t : SymbolTables) (a : α) (s : Symbols) : Prop :=
  ∃ t', x t = some (.ok a, t') ∧ t'.Represents s

theorem Yields.pure (h : t.Represents s) (a : α) : Yields (pure a) t a s := ⟨t, rfl, h⟩

theorem Yields.bind (hx : Yields x t a s) (hf : ∀ t', t'.Represents s → Yields (f a) t' b s') :
    Yields (x >>= f) t b s' := by
  obtain ⟨t', hrun, ht'⟩ := hx
  obtain ⟨t'', hrun', ht''⟩ := hf t' ht'
  exact ⟨t'', (bind_ok hrun).trans hrun', ht''⟩

theorem Yields.found {f? : SymbolTables → Option α} (h : f? t = some a) (hf : Yields (f a) t b s) :
    Yields (find f? >>= f) t b s := by
  obtain ⟨t', hrun, ht'⟩ := hf
  exact ⟨t', (bind_ok (find_eq h)).trans hrun, ht'⟩

theorem Yields.get {f : SymbolTables → InPlace β} (hf : Yields (f t) t b s) : Yields (get >>= f) t b s := hf

theorem Yields.modify {g : SymbolTables → SymbolTables} {f : Unit → InPlace β} (hf : Yields (f ()) (g t) b s) :
    Yields (modify g >>= f) t b s := hf

/-- The work ends as is said of the symbols. If that is with an error, nothing has changed in any of the tables. -/
def Simulates (x : InPlace α) (t : SymbolTables) : Except GroundingError (α × Symbols) → Prop
  | .ok (a, s) => Yields x t a s
  | .error e => x t = some (.error e, t)

theorem Simulates.map {r : Except GroundingError (α × Symbols)} (h : Simulates x t r) (g : α → β) :
    Simulates (g <$> x) t (r.map fun r => (g r.1, r.2)) := by
  cases r with
  | ok r =>
      obtain ⟨t', hrun, ht'⟩ := h
      exact ⟨t', map_eq hrun g, ht'⟩
  | error e => exact map_eq h g

end InPlace

/-! ### Types -/

theorem Represents.length_types (h : t.Represents s) : t.types.members.length = s.types.length := by
  rw [h.types.members, Symbols.length_typeNames]

theorem Represents.length_domains (h : t.Represents s) : t.domains.length = s.types.length := by
  simpa using congrArg List.length h.domains

theorem Represents.typeId? (h : t.Represents s) (name : String) : t.types.numbers[name]? = s.typeId? name := by
  rw [h.types.numbers, List.map_id, Symbols.typeId?_eq_findIdx?]
  rfl

theorem Represents.unionName? (h : t.Represents s) (hmembers : ∀ m ∈ members, m < s.types.length) :
    t.unionName? members = some (s.unionName members) := by
  have hnames : members.mapM (t.types.members[·]?) = some (members.map s.typeName) := by
    refine Lookup.mapM_eq_some fun m hm => ?_
    rw [h.types.members, Symbols.typeName_eq_getElem?,
      List.getElem?_eq_getElem ((Symbols.length_typeNames s).symm ▸ hmembers m hm)]
    rfl
  rw [SymbolTables.unionName?, hnames, Option.map_some, Symbols.unionName]

theorem sortedMembers_eq (hmembers : ∀ m ∈ members, m < s.types.length) :
    sortedMembers members = s.unionMembers members := by
  have hsorted : (sortedMembers members).Pairwise (· < ·) :=
    (((List.pairwise_insertionSort (· ≤ ·) members).sublist (List.dedup_sublist _)).and (List.nodup_dedup _)).imp
      fun h => Nat.lt_of_le_of_ne h.1 h.2
  refine hsorted.eq_of_mem_iff (List.pairwise_lt_range.filter _) fun m => ?_
  rw [sortedMembers, List.mem_dedup, List.mem_insertionSort, Symbols.unionMembers, List.mem_filter, List.mem_range,
    List.contains_iff_mem]
  exact ⟨fun hm => ⟨hmembers m hm, hm⟩, And.right⟩

namespace InPlace

theorem close_yields (h : t.Represents s) : Yields close t () s.close := by
  obtain ⟨filled, hfill, hdomains⟩ := Lookup.fillAll_eq h.linked h.length_domains
  refine .modify (.found (a := filled) ?_ (.modify ⟨_, rfl, ?_⟩))
  · rw [h.supertypes, h.constantTypes]
    exact hfill
  · have hsame := Symbols.sameTypes_close s
    exact { h with
      types := hsame.names ▸ h.types
      supertypes := h.supertypes.trans s.above_close.symm
      domains := hdomains
      closed := rfl
      linked := h.linked.close }

theorem refresh_yields (h : t.Represents s) : Yields refresh t () s.refresh := by
  refine .get ?_
  rw [Symbols.refresh, ← h.closed]
  split
  · exact close_yields h
  · exact .pure h ()

theorem declareType_known {i : Nat} (hi : t.types.numbers[name]? = some i) :
    declareType name t = some (.ok i, t) := by
  rw [declareType, get_bind, hi]
  rfl

/-- A type that is new is entered in the list of names, in the map, in the list of supertypes and in that of the
domains, one after the other. -/
theorem declareType_new (hnew : t.types.numbers[name]? = none) :
    declareType name t = (do refresh; return t.types.members.length : InPlace Nat)
      { t with
        types := (t.types.push name).assign name t.types.members.length
        supertypes := t.supertypes ++ [if t.types.members.length = 0 then [] else [objectType]]
        domains := t.domains ++ [∅] } := by
  rw [declareType, get_bind, hnew]
  rfl

theorem declareType_yields (h : t.Represents s) (name : String) :
    Yields (declareType name) t (s.declareType name).1 (s.declareType name).2 := by
  rw [Symbols.declareType]
  cases hid : s.typeId? name with
  | some i => exact ⟨t, declareType_known ((h.typeId? name).trans hid), h⟩
  | none =>
      have hnew := (h.typeId? name).trans hid
      have hne : t.types.members.length ≠ 0 := h.length_types ▸ Nat.ne_of_gt h.linked.object
      rw [Yields, declareType_new hnew, if_neg hne]
      have hpush := h.types.push hnew
      rw [h.length_types] at hpush ⊢
      refine Yields.bind (s := Symbols.refresh { s with types := s.types ++ [⟨name, [objectType], []⟩] })
        (refresh_yields { h with
          types := ?_
          supertypes := ?_
          domains := ?_
          linked := h.linked.addType name }) fun t' ht' => .pure ht' _
      · simpa [Symbols.typeNames] using hpush
      · simp [h.supertypes, Symbols.above]
      · rw [List.map_append, List.map_append, h.domains]
        rfl

theorem map_modify_of_eq {f : α → α} {g : α → β} (h : ∀ a, g (f a) = g a) (l : List α) (i : Nat) :
    (l.modify i f).map g = l.map g := by
  refine List.ext_getElem? fun j => ?_
  simp only [List.getElem?_map, List.getElem?_modify]
  cases l[j]? with
  | none => rfl
  | some a => by_cases hij : i = j <;> simp [hij, h]

/-- One more supertype of one type. -/
theorem map_modify_addSupertype {sub : Nat} (sup : Nat) (hsub : sub < s.types.length) :
    (s.types.modify sub (TypeEntry.addSupertype sup)).map (·.supertypes) =
      s.above.set sub (s.supertypes sub ++ [sup]) := by
  refine List.ext_getElem? fun i => ?_
  simp only [List.getElem?_map, List.getElem?_modify, List.getElem?_set, Symbols.above]
  by_cases hi : sub = i
  · subst hi
    simp [hsub, Symbols.supertypes, TypeEntry.addSupertype]
  · simp [hi]

theorem addSupertype_yields (h : t.Represents s) {sub sup : Nat} (hsub : sub < s.types.length)
    (hsup : sup < s.types.length) : Yields (addSupertype sub sup) t () (s.addSupertype sub sup) := by
  have habove : t.supertypes[sub]? = some (s.supertypes sub) := by rw [h.supertypes, Symbols.getElem?_above hsub]
  rw [addSupertype, Symbols.addSupertype]
  by_cases heq : sub = sup
  · rw [if_pos heq, if_pos (Or.inl heq)]
    exact .pure h ()
  rw [if_neg heq]
  refine .found habove ?_
  by_cases hmem : sup ∈ s.supertypes sub
  · rw [if_pos hmem, if_pos (Or.inr hmem)]
    exact .pure h ()
  · rw [if_neg hmem, if_neg (not_or.mpr ⟨heq, hmem⟩)]
    have hnames : (s.types.modify sub (TypeEntry.addSupertype sup)).map (·.name) = s.typeNames :=
      map_modify_of_eq (f := TypeEntry.addSupertype sup) (fun _ => rfl) _ _
    have hdomains : (s.types.modify sub (TypeEntry.addSupertype sup)).map (·.domain) = s.types.map (·.domain) :=
      map_modify_of_eq (f := TypeEntry.addSupertype sup) (fun _ => rfl) _ _
    exact .modify (refresh_yields { h with
      types := by
        rw [Symbols.typeNames, hnames]
        exact h.types
      supertypes := by
        rw [h.supertypes]
        exact (map_modify_addSupertype sup hsub).symm
      domains := h.domains.trans hdomains.symm
      linked := h.linked.link sub hsup })

theorem forM_addSupertype_yields (h : t.Represents s) {i : Nat} {members : List Nat}
    (hmembers : ∀ m ∈ members, m < s.types.length) (hi : i < s.types.length) :
    Yields (members.forM (addSupertype · i)) t () (members.foldl (fun s member => s.addSupertype member i) s) := by
  induction members generalizing t s with
  | nil => exact .pure h ()
  | cons m members ih =>
      have hle := (Symbols.follows_addSupertype m i s).types
      exact .bind (addSupertype_yields h (hmembers m List.mem_cons_self) hi) fun t' ht' =>
        ih ht' (fun m' hm' => (hmembers m' (List.mem_cons_of_mem m hm')).trans_le hle) (hi.trans_le hle)

theorem declareAbove_yields (h : t.Represents s) {ts : List Nat} (hts : ∀ m ∈ ts, m < s.types.length)
    {r : Nat × Symbols} (hr : r = match s.typeId? (s.unionName ts) with
      | some i => (i, s)
      | none =>
        let (i, s) := s.declareType (s.unionName ts)
        (i, ts.foldl (fun s member => s.addSupertype member i) s)) :
    Yields (declareAbove ts) t r.1 r.2 := by
  refine .found (h.unionName? hts) (.get ?_)
  rw [h.typeId?]
  cases hid : s.typeId? (s.unionName ts) with
  | some i =>
      obtain rfl : r = (i, s) := by simpa [hid] using hr
      exact .pure h i
  | none =>
      simp only [hid] at hr
      subst hr
      have hfollows := Symbols.follows_declareType (s.unionName ts) s
      refine .bind (declareType_yields h (s.unionName ts)) fun t' ht' => ?_
      refine .bind (forM_addSupertype_yields ht' ?_ hfollows.2) fun t'' ht'' => .pure ht'' _
      exact fun m hm => (hts m hm).trans_le hfollows.1.types

theorem declareUnion_yields (h : t.Represents s) {members : List Nat} (hmembers : ∀ m ∈ members, m < s.types.length) :
    Yields (declareUnion members) t (s.declareUnion members).1 (s.declareUnion members).2 := by
  have hlt : ∀ m ∈ s.unionMembers members, m < s.types.length := fun m hm => (Symbols.lt_of_mem_unionMembers hm).1
  rw [declareUnion, sortedMembers_eq hmembers, Symbols.declareUnion]
  rcases hts : s.unionMembers members with _ | ⟨i, _ | ⟨j, ts⟩⟩
  · exact declareAbove_yields h (by simp) rfl
  · exact .pure h i
  · exact declareAbove_yields h (hts ▸ hlt) rfl

theorem knownType_eq (h : t.Represents s) (name : String) :
    knownType name t = some (s.knownType name, t) := by
  rw [knownType, get_bind, h.typeId?, Symbols.knownType]
  cases s.typeId? name <;> rfl

theorem mapM_knownType_eq (h : t.Represents s) (names : List String) :
    names.mapM knownType t = some (names.mapM s.knownType, t) := by
  induction names with
  | nil => rfl
  | cons name names ih =>
      rw [List.mapM_cons, List.mapM_cons]
      have hname := knownType_eq h name
      cases hid : s.knownType name with
      | error e =>
          rw [hid] at hname
          exact bind_error hname
      | ok i =>
          rw [hid] at hname
          rw [bind_ok hname]
          cases hids : names.mapM s.knownType with
          | error e =>
              rw [hids] at ih
              exact bind_error ih
          | ok ids =>
              rw [hids] at ih
              exact bind_ok ih

theorem resolve_simulates (h : t.Represents s) (ref : Definition.TypeRef) :
    Simulates (resolve ref) t (s.resolve ref) := by
  cases ref with
  | exactly name =>
      have hname := knownType_eq h name
      rw [resolve, Symbols.resolve]
      cases hid : s.knownType name with
      | error e => exact hname.trans (by rw [hid])
      | ok i => exact ⟨t, hname.trans (by rw [hid]), h⟩
  | eitherOf names =>
      have hnames := mapM_knownType_eq h names
      rw [resolve, Symbols.resolve]
      cases hids : names.mapM s.knownType with
      | error e =>
          rw [hids] at hnames
          exact bind_error hnames
      | ok ids =>
          rw [hids] at hnames
          cases ids with
          | nil => exact ⟨t, bind_ok hnames, h⟩
          | cons i ids =>
              obtain ⟨t', hrun, ht'⟩ := declareUnion_yields h (Symbols.lt_of_mapM_knownType hids)
              exact ⟨t', (bind_ok hnames).trans hrun, ht'⟩

end InPlace

/-! ### Constants, predicates and tasks -/

namespace Family

open InPlace

variable {α : Type} {f : Family α} {d : α} {i : Nat}

theorem declare_known (hnumber : (f.names t).numbers[name]? = some i) {agrees : Bool}
    (hagrees : f.agrees? t i d = some agrees) :
    f.declare name d t = some (if agrees then .ok i else .error (.conflict f.kind name), t) := by
  rw [declare, get_bind, hnumber]
  refine (bind_ok (find_eq hagrees)).trans ?_
  cases agrees <;> rfl

/-- The tables with a name in the list and in the map, and no definition yet. -/
def enterName (f : Family α) (name : String) (t : SymbolTables) : SymbolTables :=
  let pushed := f.setNames ((f.names t).push name) t
  f.setNames ((f.names pushed).assign name (f.names t).members.length) pushed

theorem declare_new (hnumber : (f.names t).numbers[name]? = none) :
    f.declare name d t =
      (do f.store d; return (f.names t).members.length : InPlace Nat) (f.enterName name t) := by
  rw [declare, get_bind, hnumber]
  rfl

/-- The names are those of the catalog, and what is there is compared with its definitions. -/
structure Represents (f : Family α) [DecidableEq α] (t : SymbolTables) (c : Catalog α) : Prop where
  names : (f.names t).Holds id c.names
  agrees : ∀ {i e}, c.definition? i = some e → ∀ d, f.agrees? t i d = some (decide (e = d))

variable [DecidableEq α] {c : Catalog α}

theorem Represents.numbers (h : f.Represents t c) (name : String) : (f.names t).numbers[name]? = c.id? name := by
  rw [h.names.numbers, List.map_id, Catalog.id?_eq_idxOf?]

/-- A name that is there can be declared again as what it is, and as nothing else. -/
theorem Represents.declare_known (h : f.Represents t c) (hnumber : (f.names t).numbers[name]? = some i) :
    ∃ e, c.definition? i = some e ∧
      ∀ d, f.declare name d t = some (if e = d then .ok i else .error (.conflict f.kind name), t) := by
  obtain ⟨e, he⟩ := Catalog.exists_definition? ((h.numbers name).symm.trans hnumber)
  refine ⟨e, he, fun d => (Family.declare_known hnumber (h.agrees he d)).trans ?_⟩
  simp only [decide_eq_true_eq]

/-- The definition of a name that is there is compared, and that of a new one is stored. -/
theorem Represents.declare_simulates (hf : f.Represents t c) (h : t.Represents s)
    {r : Except GroundingError (Nat × Symbols)}
    (hknown : ∀ i, c.id? name = some i →
      r = if c.definition? i = some d then .ok (i, s) else .error (.conflict f.kind name))
    (hnew : c.id? name = none → ∃ s', r = .ok (c.size, s') ∧ Yields (f.store d) (f.enterName name t) () s') :
    Simulates (f.declare name d) t r := by
  cases hid : c.id? name with
  | some i =>
      obtain ⟨e, he, hdeclare⟩ := hf.declare_known ((hf.numbers name).trans hid)
      have hdeclare := hdeclare d
      have hr := hknown i hid
      simp only [he, Option.some.injEq] at hr
      by_cases hed : e = d
      · rw [if_pos hed] at hr hdeclare
        exact hr ▸ ⟨t, hdeclare, h⟩
      · rw [if_neg hed] at hr hdeclare
        exact hr ▸ hdeclare
  | none =>
      obtain ⟨s', rfl, t', hrun, ht'⟩ := hnew hid
      have hsize : (f.names t).members.length = c.size := by
        rw [hf.names.members, Catalog.names, List.length_map]
        rfl
      exact ⟨t', by rw [declare_new ((hf.numbers name).trans hid), bind_ok hrun, hsize]; rfl, ht'⟩

end Family

theorem Represents.constantType (h : t.Represents s) (i : Nat) :
    t.constantTypes[i]? = s.constants.definition? i := by
  rw [h.constantTypes, List.getElem?_map]
  rfl

theorem Represents.signature (h : t.Represents s) (i : Nat) : t.signatures[i]? = s.predicates.definition? i := by
  rw [h.signatures, List.getElem?_map]
  rfl

theorem Represents.taskSignature (h : t.Represents s) {i : Nat} {signature : TaskSignature}
    (hi : s.tasks.definition? i = some signature) :
    t.taskSignatures[i]? = some signature.parameters ∧ t.primitiveTasks[i]? = some signature.primitive := by
  obtain ⟨entry, hentry, rfl⟩ := Option.map_eq_some_iff.mp hi
  rw [h.taskSignatures, h.primitiveTasks, List.getElem?_map, List.getElem?_map, hentry]
  exact ⟨rfl, rfl⟩

theorem Represents.constants_family (h : t.Represents s) : Family.constants.Represents t s.constants :=
  ⟨h.constants, fun he _ => congrArg (Option.map _) ((h.constantType _).trans he)⟩

theorem Represents.predicates_family (h : t.Represents s) : Family.predicates.Represents t s.predicates :=
  ⟨h.predicates, fun he _ => congrArg (Option.map _) ((h.signature _).trans he)⟩

theorem Represents.tasks_family (h : t.Represents s) : Family.tasks.Represents t s.tasks := by
  refine ⟨h.tasks, fun {i signature} he d => ?_⟩
  obtain ⟨hparameters, hprimitive⟩ := h.taskSignature he
  obtain ⟨parameters, primitive⟩ := signature
  obtain ⟨parameters', primitive'⟩ := d
  simp only [Family.tasks, hparameters, hprimitive, Option.bind_eq_bind, Option.bind_some, Option.map_some]
  by_cases hp : parameters = parameters' <;> simp [hp]

/-- The names of a catalog after one more. -/
theorem holds_concat {α : Type} {c : Catalog α} {r : Registry String String} (h : r.Holds id c.names)
    (hid : c.id? name = none) (d : α) : ((r.push name).assign name r.members.length).Holds id
      (Catalog.names ⟨c.entries ++ [(name, d)]⟩) := by
  have hpush := h.push (a := name) (by rw [h.numbers, List.map_id, id, ← Catalog.id?_eq_idxOf?, hid])
  simpa [Catalog.names] using hpush

theorem declareConstant_simulates (h : t.Represents s) (name : String) {type : Nat} (htype : type < s.types.length) :
    InPlace.Simulates (Family.constants.declare name type) t (s.declareConstant name type) := by
  refine h.constants_family.declare_simulates h (fun i hid => Symbols.declareConstant_known hid type) fun hid => ?_
  have hdeclare : s.constants.declare? name type =
      some (s.constants.size, ⟨s.constants.entries ++ [(name, type)]⟩) := by
    rw [Catalog.declare?, hid]
  refine ⟨Symbols.refresh { s with constants := ⟨s.constants.entries ++ [(name, type)]⟩ }, ?_, ?_⟩
  · rw [Symbols.declareConstant, hdeclare]
    dsimp only
    rw [if_neg (Nat.lt_irrefl _)]
  · exact .modify (InPlace.refresh_yields { h with
      constants := holds_concat h.constants hid type
      constantTypes := by
        rw [List.map_append, ← h.constantTypes]
        rfl
      linked := h.linked.addConstant htype hdeclare })

theorem declarePredicate_simulates (h : t.Represents s) (name : String) (signature : List Nat) :
    InPlace.Simulates (Family.predicates.declare name signature) t (s.declarePredicate name signature) := by
  refine h.predicates_family.declare_simulates h (fun i hid => Symbols.declarePredicate_known hid signature)
    fun hid => ?_
  refine ⟨{ s with predicates := ⟨s.predicates.entries ++ [(name, signature)]⟩ }, ?_, ?_⟩
  · rw [Symbols.declarePredicate, Catalog.declare?, hid]
  · exact ⟨_, rfl, { h with
      predicates := holds_concat h.predicates hid signature
      signatures := by
        rw [List.map_append, ← h.signatures]
        rfl
      linked := ⟨h.linked.object, h.linked.supertypes, h.linked.constants⟩ }⟩

theorem declareTask_simulates (h : t.Represents s) (name : String) (signature : TaskSignature) :
    InPlace.Simulates (Family.tasks.declare name signature) t (s.declareTask name signature) := by
  refine h.tasks_family.declare_simulates h (fun i hid => Symbols.declareTask_known hid signature) fun hid => ?_
  refine ⟨{ s with tasks := ⟨s.tasks.entries ++ [(name, signature)]⟩ }, ?_, ?_⟩
  · rw [Symbols.declareTask, Catalog.declare?, hid]
  · exact ⟨_, rfl, { h with
      tasks := holds_concat h.tasks hid signature
      taskSignatures := by
        rw [List.map_append, ← h.taskSignatures]
        rfl
      primitiveTasks := by
        rw [List.map_append, ← h.primitiveTasks]
        rfl
      linked := ⟨h.linked.object, h.linked.supertypes, h.linked.constants⟩ }⟩

/-! ### Sequences of operations -/

variable {c : Change} {changes : List Change}

theorem Represents.admits_iff (h : t.Represents s) : t.Admits c ↔ c.Fits s := by
  rw [Admits, h.length_types]
  cases c <;> simp [mentioned, Change.Fits]

theorem perform_simulates (h : t.Represents s) (hfits : c.Fits s) : InPlace.Simulates (perform c) t (c.result s) := by
  cases c with
  | declareType name => exact .map (r := .ok (s.declareType name)) (InPlace.declareType_yields h name) some
  | addSupertype sub sup =>
      exact .bind (InPlace.addSupertype_yields h hfits.1 hfits.2) fun t' ht' => .pure ht' none
  | declareUnion members =>
      exact .map (r := .ok (s.declareUnion members)) (InPlace.declareUnion_yields h hfits) some
  | resolve ref => exact (InPlace.resolve_simulates h ref).map some
  | declareConstant name type => exact (declareConstant_simulates h name hfits).map some
  | declarePredicate name signature => exact (declarePredicate_simulates h name signature).map some
  | declareTask name signature => exact (declareTask_simulates h name signature).map some
  | close => exact .bind (InPlace.close_yields h) fun t' ht' => .pure ht' none

/-- An operation gets through, without an index that is of nothing. If it fails, it has changed nothing. -/
theorem perform_eq (h : t.Represents s) (hfits : c.Fits s) : ∃ t', perform c t = some ((c.result s).map (·.1), t') ∧
    t'.Represents (c.apply s) ∧ ∀ e, c.result s = .error e → t' = t := by
  have hsimulates := perform_simulates h hfits
  rw [Change.apply_eq]
  cases hr : c.result s with
  | ok r =>
      rw [hr] at hsimulates
      obtain ⟨t', hrun, ht'⟩ := hsimulates
      exact ⟨t', hrun, ht', fun e he => by cases he⟩
  | error e =>
      rw [hr] at hsimulates
      exact ⟨t, hsimulates, h, fun _ _ => rfl⟩

theorem admitsAll_iff (history : Symbols.History) (h : t.Represents history.symbols) :
    t.AdmitsAll changes ↔ history.Fits changes := by
  induction changes generalizing t history with
  | nil => exact Iff.rfl
  | cons c changes ih =>
      rw [AdmitsAll, Symbols.History.Fits, h.admits_iff, and_congr_right_iff]
      intro hfits
      obtain ⟨t', hrun, ht', -⟩ := perform_eq h hfits
      rw [← ih (history.step c) ht']
      refine ⟨fun hall => hall _ t' hrun, fun hrest r u hu => ?_⟩
      obtain ⟨-, rfl⟩ := Prod.mk.inj (Option.some.inj (hrun.symm.trans hu))
      exact hrest

theorem performAll_represents (history : Symbols.History) (h : t.Represents history.symbols)
    (hfits : history.Fits changes) :
    ∃ t', t.performAll changes = some t' ∧ t'.Represents (history.run changes).symbols := by
  induction changes generalizing t history with
  | nil => exact ⟨t, rfl, h⟩
  | cons c changes ih =>
      obtain ⟨t', hrun, ht', -⟩ := perform_eq h hfits.1
      obtain ⟨t'', hrest, ht''⟩ := ih (history.step c) ht' hfits.2
      refine ⟨t'', ?_, ht''⟩
      rw [performAll, List.foldlM_cons, hrun]
      exact hrest

theorem start_represents : start.Represents {} := by
  have hnew : ({} : SymbolTables).types.numbers["object"]? = none := Std.HashMap.getElem?_empty
  have hstart : start =
      { types := (Registry.push {} "object").assign "object" 0, supertypes := [[]], domains := [∅] } := by
    rw [start, InPlace.declareType_new hnew]
    rfl
  rw [hstart]
  exact {
    types := Registry.holds_empty.push hnew
    supertypes := rfl
    domains := rfl
    closed := rfl
    constants := Registry.holds_empty
    constantTypes := rfl
    predicates := Registry.holds_empty
    signatures := rfl
    tasks := Registry.holds_empty
    taskSignatures := rfl
    primitiveTasks := rfl
    linked := by decide }

end SymbolTables

end HtnPlanner
