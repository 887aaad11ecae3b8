import HtnPlanner.Proofs.Lifted.Naming
import HtnPlanner.Proofs.Symbols.Hierarchy

/-!
What each operation does to the names of the types and to their supertypes. To fill in domains does nothing to either.
-/

namespace HtnPlanner.Symbols

variable {s s' : Symbols} {t a b : Nat} {name : String} {members : List Nat}

def typeNames (s : Symbols) : List String := s.types.map (·.name)

@[simp]
theorem length_typeNames (s : Symbols) : s.typeNames.length = s.types.length := List.length_map _

theorem length_types_of_append {later : List String} (h : s'.typeNames = s.typeNames ++ later) :
    s'.types.length = s.types.length + later.length := by
  rw [← length_typeNames, h, List.length_append, length_typeNames]

theorem typeName_eq_getElem? (s : Symbols) (t : Nat) : s.typeName t = s.typeNames[t]?.getD "" := by
  rw [typeName, typeNames, List.getElem?_map]
  cases s.types[t]? <;> rfl

theorem typeId?_eq_findIdx? (s : Symbols) (name : String) : s.typeId? name = s.typeNames.findIdx? (· == name) := by
  rw [typeNames, List.findIdx?_map]
  rfl

theorem getElem?_typeNames_of_typeId? (h : s.typeId? name = some t) : s.typeNames[t]? = some name := by
  rw [typeId?_eq_findIdx?] at h
  obtain ⟨ht, hname, -⟩ := List.findIdx?_eq_some_iff_getElem.mp h
  rw [List.getElem?_eq_getElem ht, eq_of_beq hname]

theorem not_mem_typeNames_of_typeId? (h : s.typeId? name = none) : name ∉ s.typeNames := by
  rw [typeId?_eq_findIdx?, List.findIdx?_eq_none_iff] at h
  intro hmem
  simpa using h name hmem

/-- Nothing but domains and other tables may have changed. -/
structure SameTypes (s s' : Symbols) : Prop where
  names : s'.typeNames = s.typeNames
  supertypes : s'.supertypes = s.supertypes

theorem SameTypes.refl (s : Symbols) : s.SameTypes s := ⟨rfl, rfl⟩

theorem SameTypes.trans {s'' : Symbols} (h : s.SameTypes s') (h' : s'.SameTypes s'') : s.SameTypes s'' :=
  ⟨h'.names.trans h.names, h'.supertypes.trans h.supertypes⟩

theorem SameTypes.length (h : s.SameTypes s') : s'.types.length = s.types.length :=
  length_types_of_append (h.names.trans (List.append_nil _).symm)

theorem SameTypes.of_types (h : s'.types = s.types) : s.SameTypes s' :=
  ⟨by rw [typeNames, typeNames, h], by funext t; rw [Symbols.supertypes, Symbols.supertypes, h]⟩

theorem sameTypes_close (s : Symbols) : s.SameTypes s.close := by
  refine ⟨List.ext_getElem? fun i => ?_, ?_⟩
  · simp only [typeNames, close, List.getElem?_map, List.getElem?_mapIdx]
    cases s.types[i]? <;> rfl
  · funext t
    simp only [Symbols.supertypes, close, List.getElem?_mapIdx]
    cases s.types[t]? <;> rfl

theorem sameTypes_refresh (s : Symbols) : s.SameTypes s.refresh := by
  rw [refresh]
  split
  · exact sameTypes_close s
  · exact .refl s

theorem sameTypes_declareConstant (h : s.declareConstant name t = .ok (a, s')) : s.SameTypes s' := by
  rw [declareConstant] at h
  split at h
  · next constants _ =>
      obtain ⟨-, rfl⟩ := Prod.mk.inj (Except.ok.inj h)
      split
      · exact .refl s
      · have hconstants : s.SameTypes { s with constants } := .of_types rfl
        exact hconstants.trans (sameTypes_refresh _)
  · cases h

theorem sameTypes_declarePredicate {signature : List Nat} (h : s.declarePredicate name signature = .ok (a, s')) :
    s.SameTypes s' := by
  rw [declarePredicate] at h
  split at h
  · obtain ⟨-, rfl⟩ := Prod.mk.inj (Except.ok.inj h)
    exact .of_types rfl
  · cases h

theorem sameTypes_declareTask {signature : TaskSignature} (h : s.declareTask name signature = .ok (a, s')) :
    s.SameTypes s' := by
  rw [declareTask] at h
  split at h
  · obtain ⟨-, rfl⟩ := Prod.mk.inj (Except.ok.inj h)
    exact .of_types rfl
  · cases h

/-- A new type is a subtype of `object`. -/
theorem declareType_new (h : s.typeId? name = none) :
    (s.declareType name).1 = s.types.length ∧ (s.declareType name).2.typeNames = s.typeNames ++ [name] ∧
      ∀ a b, b ∈ (s.declareType name).2.supertypes a ↔
        b ∈ s.supertypes a ∨ a = s.types.length ∧ b = objectType := by
  have hsame := sameTypes_refresh { s with types := s.types ++ [⟨name, [objectType], []⟩] }
  rw [declareType, h]
  refine ⟨rfl, hsame.names.trans (by simp [typeNames]), fun a b => ?_⟩
  rw [hsame.supertypes]
  rcases Nat.lt_trichotomy a s.types.length with ha | rfl | ha
  · simp [Symbols.supertypes, List.getElem?_append_left ha, ha.ne]
  · simp [Symbols.supertypes]
  · rw [Symbols.supertypes, Symbols.supertypes, List.getElem?_eq_none (by simpa using ha.nat_succ_le),
      List.getElem?_eq_none ha.le]
    simp [ha.ne']

theorem declareType_known (h : s.typeId? name = some t) : s.declareType name = (t, s) := by
  rw [declareType, h]

theorem addSupertype_spec (sub sup : Nat) (s : Symbols) : (s.addSupertype sub sup).typeNames = s.typeNames ∧
    ∀ a b, b ∈ (s.addSupertype sub sup).supertypes a ↔
      b ∈ s.supertypes a ∨ a < s.types.length ∧ a = sub ∧ b = sup ∧ sub ≠ sup := by
  have hsame := sameTypes_refresh { s with types := s.types.modify sub (TypeEntry.addSupertype sup) }
  rw [addSupertype]
  split
  · next h =>
      refine ⟨rfl, fun a b => (or_iff_left_of_imp ?_).symm⟩
      rintro ⟨-, rfl, rfl, hne⟩
      exact h.resolve_left hne
  · next h =>
      refine ⟨hsame.names.trans ?_, fun a b => ?_⟩
      · refine List.ext_getElem? fun i => ?_
        simp only [typeNames, List.getElem?_map, List.getElem?_modify]
        cases s.types[i]? with
        | none => rfl
        | some entry => by_cases hi : sub = i <;> simp [hi, TypeEntry.addSupertype]
      · rw [hsame.supertypes]
        simp only [Symbols.supertypes, List.getElem?_modify]
        by_cases ha : a < s.types.length
        · rw [List.getElem?_eq_getElem ha]
          by_cases hsub : sub = a
          · have hne : sub ≠ sup := fun hne => h (Or.inl hne)
            simp [hsub, ha, TypeEntry.addSupertype, hsub ▸ hne]
          · simp [hsub, Ne.symm hsub]
        · rw [List.getElem?_eq_none (Nat.le_of_not_lt ha)]
          simp [ha]

theorem foldl_addSupertype_spec (t : Nat) (members : List Nat) (s : Symbols) :
    (members.foldl (fun s member => s.addSupertype member t) s).typeNames = s.typeNames ∧
      ∀ a b, b ∈ (members.foldl (fun s member => s.addSupertype member t) s).supertypes a ↔
        b ∈ s.supertypes a ∨ a < s.types.length ∧ a ∈ members ∧ b = t ∧ a ≠ t := by
  induction members generalizing s with
  | nil => simp
  | cons m members ih =>
      obtain ⟨hnames, hsupertypes⟩ := addSupertype_spec m t s
      obtain ⟨hnames', hsupertypes'⟩ := ih (s.addSupertype m t)
      have hlength : (s.addSupertype m t).types.length = s.types.length :=
        length_types_of_append (hnames.trans (List.append_nil _).symm)
      refine ⟨hnames'.trans hnames, fun a b => ?_⟩
      rw [List.foldl_cons, hsupertypes', hsupertypes, hlength, List.mem_cons]
      by_cases ham : a = m
      · subst ham
        tauto
      · tauto

/-- The name of a union is that of its members, and types that come later do not change it. -/
theorem unionName_eq {later : List String} (hnames : s'.typeNames = s.typeNames ++ later)
    (hmembers : ∀ m ∈ members, m < s.types.length) :
    s'.unionName members = s.unionName members := by
  have hmap : members.map s'.typeName = members.map s.typeName := by
    refine List.map_congr_left fun m hm => ?_
    have hlt : m < s.typeNames.length := by simpa using hmembers m hm
    rw [typeName_eq_getElem?, typeName_eq_getElem?, hnames, List.getElem?_append_left hlt]
  rw [unionName, unionName, hmap]

theorem lt_of_mem_unionMembers (h : a ∈ s.unionMembers members) : a < s.types.length ∧ a ∈ members := by
  obtain ⟨ha, hmem⟩ := List.mem_filter.mp h
  exact ⟨List.mem_range.mp ha, by simpa using hmem⟩

/-- A union of one type is that type. Any other is known by its name, or it is a new type above all of its
members. -/
theorem declareUnion_cases (members : List Nat) (s : Symbols) :
    (∃ t, s.declareUnion members = (t, s) ∧
      (s.unionMembers members = [t] ∨ (s.unionMembers members).length ≠ 1 ∧
        s.typeNames[t]? = some (s.unionName (s.unionMembers members)))) ∨
    (s.unionMembers members).length ≠ 1 ∧
      s.typeId? (s.unionName (s.unionMembers members)) = none ∧
      (s.declareUnion members).1 = s.types.length ∧
      (s.declareUnion members).2.typeNames = s.typeNames ++ [s.unionName (s.unionMembers members)] ∧
      ∀ a b, b ∈ (s.declareUnion members).2.supertypes a ↔ b ∈ s.supertypes a ∨
        a = s.types.length ∧ b = objectType ∨ a ∈ s.unionMembers members ∧ b = s.types.length := by
  rw [declareUnion]
  split
  · next t ht => exact Or.inl ⟨t, rfl, Or.inl ht⟩
  · next hlength =>
      have hlt : ∀ a ∈ s.unionMembers members, a < s.types.length := fun a ha => (lt_of_mem_unionMembers ha).1
      generalize s.unionMembers members = ts at hlength hlt ⊢
      have hone : ts.length ≠ 1 := fun h => (List.length_eq_one_iff.mp h).elim hlength
      cases hid : s.typeId? (s.unionName ts) with
      | some t => exact Or.inl ⟨t, rfl, Or.inr ⟨hone, getElem?_typeNames_of_typeId? hid⟩⟩
      | none =>
          obtain ⟨hnew, hnames, hsupertypes⟩ := declareType_new hid
          have hnames' := (foldl_addSupertype_spec s.types.length ts (s.declareType (s.unionName ts)).2).1
          have hsupertypes' := (foldl_addSupertype_spec s.types.length ts (s.declareType (s.unionName ts)).2).2
          have hgrown : (s.declareType (s.unionName ts)).2.types.length = s.types.length + 1 :=
            length_types_of_append hnames
          refine Or.inr ⟨hone, rfl, hnew, ?_, fun a b => ?_⟩
          · dsimp only
            rw [hnew, hnames', hnames]
          · dsimp only
            rw [hnew, hsupertypes', hsupertypes, hgrown, or_assoc]
            refine or_congr_right (or_congr_right ?_)
            constructor
            · rintro ⟨-, ha, hb, -⟩
              exact ⟨ha, hb⟩
            · rintro ⟨ha, hb⟩
              have ha' := hlt a ha
              exact ⟨by omega, ha, hb, ha'.ne⟩

theorem lt_of_mapM_knownType {names : List String} (h : names.mapM s.knownType = .ok members) :
    ∀ m ∈ members, m < s.types.length := by
  intro m hm
  obtain ⟨name, -, hname⟩ := (Except.mapM_eq_ok h).2 m hm
  exact knownType_lt hname

/-- The members of a union are found by their names. -/
theorem filterMap_typeId?_of_mapM {names : List String} {ids : List Nat} (h : names.mapM s.knownType = .ok ids) :
    names.filterMap s.typeId? = ids := by
  induction names generalizing ids with
  | nil => simpa [pure, Except.pure] using h
  | cons name names ih =>
      rw [List.mapM_cons] at h
      obtain ⟨t, ht, h⟩ := Except.bind_eq_ok.mp h
      obtain ⟨ts, hts, h⟩ := Except.bind_eq_ok.mp h
      obtain rfl : t :: ts = ids := by simpa [pure, Except.pure] using h
      rw [List.filterMap_cons_some (knownType_eq_ok.mp ht), ih hts]

theorem resolve_eitherOf {names : List String} {ids : List Nat} (h : names.mapM s.knownType = .ok ids)
    (hne : ids ≠ []) : s.resolve (.eitherOf names) = .ok (s.declareUnion ids) := by
  cases ids with
  | nil => exact absurd rfl hne
  | cons t ts => simp only [resolve, h, bind, Except.bind]

/-- To resolve a reference changes nothing, or it declares a union. -/
theorem resolve_cases {ref : Definition.TypeRef} (h : s.resolve ref = .ok (t, s')) :
    s' = s ∨ s' = (s.declareUnion (ref.names.filterMap s.typeId?)).2 := by
  cases ref with
  | exactly name =>
      obtain ⟨u, -, heq⟩ := Except.map_eq_ok.mp h
      exact Or.inl (Prod.mk.inj heq).2.symm
  | eitherOf names =>
      cases hids : names.mapM s.knownType with
      | error e => simp [resolve, hids, bind, Except.bind] at h
      | ok ids =>
          by_cases hne : ids = []
          · simp only [resolve, hids, hne, bind, Except.bind, Except.ok.injEq, Prod.mk.injEq] at h
            exact Or.inl h.2.symm
          · rw [resolve_eitherOf hids hne] at h
            rw [Definition.TypeRef.names, filterMap_typeId?_of_mapM hids, Except.ok.inj h]
            exact Or.inr rfl

end HtnPlanner.Symbols
