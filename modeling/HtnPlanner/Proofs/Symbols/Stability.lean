import HtnPlanner.Proofs.Encoded.State
import HtnPlanner.Proofs.Lookup.Registry
import HtnPlanner.Proofs.Order.Reach
import HtnPlanner.Proofs.Symbols.History

/-!
What operations leave as it is. The symbols only grow: there may be more at the end of each part, under names that were
not there. So what an operation says of the id that it returns stays true.
-/

namespace HtnPlanner

namespace Catalog

variable {α : Type} {c c' : Catalog α} {name : String} {id : Nat}

def names (c : Catalog α) : List String := c.entries.map (·.1)

theorem id?_eq_idxOf? (c : Catalog α) (name : String) : c.id? name = c.names.idxOf? name := by
  rw [id?, names, List.idxOf?, List.findIdx?_map]
  rfl

variable [DecidableEq α] {d : α}

/-- A name that is there is not entered again; a new one is entered at the end. -/
theorem declare?_cases (h : c.declare? name d = some (id, c')) :
    (c.id? name = some id ∧ c.definition? id = some d ∧ c' = c) ∨
      (c.id? name = none ∧ id = c.size ∧ c'.entries = c.entries ++ [(name, d)]) := by
  rw [declare?] at h
  cases hid : c.id? name with
  | some i =>
      simp only [hid, Option.ite_none_right_eq_some, Option.some.injEq, Prod.mk.injEq] at h
      obtain ⟨hd, rfl, rfl⟩ := h
      exact Or.inl ⟨rfl, hd, rfl⟩
  | none =>
      simp only [hid, Option.some.injEq, Prod.mk.injEq] at h
      obtain ⟨rfl, rfl⟩ := h
      exact Or.inr ⟨rfl, rfl, rfl⟩

theorem eq_of_declare? (h : c.declare? name d = some (id, c')) (hid : id < c.size) : c' = c := by
  rcases declare?_cases h with ⟨-, -, rfl⟩ | ⟨-, rfl, -⟩
  · rfl
  · exact absurd hid (Nat.lt_irrefl _)

theorem getElem?_declare? (h : c.declare? name d = some (id, c')) : c'.entries[id]? = some (name, d) := by
  obtain ⟨hname, hdefinition, -⟩ := declare?_eq_some h
  obtain ⟨hlt, hn, -⟩ := List.findIdx?_eq_some_iff_getElem.mp hname
  rw [definition?, List.getElem?_eq_getElem hlt] at hdefinition
  rw [List.getElem?_eq_getElem hlt]
  exact congrArg some (Prod.ext (eq_of_beq hn) (Option.some.inj hdefinition))

end Catalog

namespace Symbols

variable {s s' : Symbols} {c : Change} {members : List Nat} {id : Nat}

/-- What the operation is said to return, and the symbols after it. -/
def Change.result (s : Symbols) : Change → Except GroundingError (Option Nat × Symbols)
  | declareType name => .ok (some (s.declareType name).1, (s.declareType name).2)
  | addSupertype sub sup => .ok (none, s.addSupertype sub sup)
  | declareUnion members => .ok (some (s.declareUnion members).1, (s.declareUnion members).2)
  | resolve ref => (s.resolve ref).map fun r => (some r.1, r.2)
  | declareConstant name type => (s.declareConstant name type).map fun r => (some r.1, r.2)
  | declarePredicate name signature => (s.declarePredicate name signature).map fun r => (some r.1, r.2)
  | declareTask name signature => (s.declareTask name signature).map fun r => (some r.1, r.2)
  | close => .ok (none, s.close)

theorem Change.apply_eq (s : Symbols) (c : Change) : c.apply s = match c.result s with
    | .ok (_, s') => s'
    | .error _ => s := by
  cases c with
  | resolve ref => rw [apply, result]; cases s.resolve ref <;> rfl
  | declareConstant name type => rw [apply, result]; cases s.declareConstant name type <;> rfl
  | declarePredicate name signature => rw [apply, result]; cases s.declarePredicate name signature <;> rfl
  | declareTask name signature => rw [apply, result]; cases s.declareTask name signature <;> rfl
  | _ => rfl

/-! ### What stays -/

/-- No name is in one of the tables twice. -/
structure Distinct (s : Symbols) : Prop where
  types : s.typeNames.Nodup
  constants : s.constants.names.Nodup
  predicates : s.predicates.names.Nodup
  tasks : s.tasks.names.Nodup

/-- Something may be added at the end, by keys that were not there. -/
structure Adds {α : Type} (key : α → String) (l l' : List α) : Prop where
  kept : l <+: l'
  nodup : (l.map key).Nodup → (l'.map key).Nodup

namespace Adds

variable {α : Type} {key : α → String} {l l' l'' : List α}

theorem of_eq (h : l' = l) : Adds key l l' := h ▸ ⟨List.prefix_rfl, id⟩

theorem trans (h : Adds key l l') (h' : Adds key l' l'') : Adds key l l'' :=
  ⟨h.kept.trans h'.kept, fun hl => h'.nodup (h.nodup hl)⟩

theorem append {a : α} (h : key a ∉ l.map key) : Adds key l (l ++ [a]) := by
  refine ⟨List.prefix_append _ _, fun hl => ?_⟩
  rw [List.map_append]
  exact hl.append (List.nodup_singleton _) (List.disjoint_singleton.mpr h)

theorem of_declare? [DecidableEq α] {c c' : Catalog α} {name : String} {d : α}
    (h : c.declare? name d = some (id, c')) : Adds (·.1) c.entries c'.entries := by
  rcases Catalog.declare?_cases h with ⟨-, -, rfl⟩ | ⟨hid, -, hentries⟩
  · exact of_eq rfl
  · rw [Catalog.id?_eq_idxOf?, List.idxOf?_eq_none_iff] at hid
    exact hentries ▸ append hid

end Adds

/-- What was in the tables is kept, and what is added was not there. -/
structure Grows (s s' : Symbols) : Prop where
  types : Adds (·) s.typeNames s'.typeNames
  constants : Adds (·.1) s.constants.entries s'.constants.entries
  predicates : Adds (·.1) s.predicates.entries s'.predicates.entries
  tasks : Adds (·.1) s.tasks.entries s'.tasks.entries

namespace Grows

theorem refl (s : Symbols) : s.Grows s := ⟨.of_eq rfl, .of_eq rfl, .of_eq rfl, .of_eq rfl⟩

theorem trans {s'' : Symbols} (h : s.Grows s') (h' : s'.Grows s'') : s.Grows s'' :=
  ⟨h.types.trans h'.types, h.constants.trans h'.constants, h.predicates.trans h'.predicates, h.tasks.trans h'.tasks⟩

theorem distinct (h : s.Grows s') (hs : s.Distinct) : s'.Distinct where
  types := by simpa using h.types.nodup (by simpa using hs.types)
  constants := h.constants.nodup hs.constants
  predicates := h.predicates.nodup hs.predicates
  tasks := h.tasks.nodup hs.tasks

theorem of_types (hext : s.Extends s') (hnames : Adds (·) s.typeNames s'.typeNames) : s.Grows s' :=
  ⟨hnames, .of_eq (congrArg _ hext.constants), .of_eq (congrArg _ hext.predicates), .of_eq (congrArg _ hext.tasks)⟩

theorem declareType (name : String) (s : Symbols) : s.Grows (s.declareType name).2 := by
  refine .of_types (follows_declareType name s).1.toExtends ?_
  cases hid : s.typeId? name with
  | some t => exact .of_eq (by rw [declareType_known hid])
  | none =>
      rw [(declareType_new hid).2.1]
      exact .append (by simpa using not_mem_typeNames_of_typeId? hid)

theorem addSupertype (sub sup : Nat) (s : Symbols) : s.Grows (s.addSupertype sub sup) :=
  .of_types (follows_addSupertype sub sup s).toExtends (.of_eq (addSupertype_spec sub sup s).1)

theorem declareUnion (members : List Nat) (s : Symbols) : s.Grows (s.declareUnion members).2 := by
  refine .of_types (follows_declareUnion members s).1.toExtends ?_
  rcases declareUnion_cases members s with ⟨t, heq, -⟩ | ⟨-, hid, -, hnames, -⟩
  · exact .of_eq (by rw [heq])
  · rw [hnames]
    exact .append (by simpa using not_mem_typeNames_of_typeId? hid)

theorem resolve {ref : Definition.TypeRef} (h : s.resolve ref = .ok (id, s')) : s.Grows s' := by
  rcases resolve_cases h with rfl | rfl
  · exact .refl s'
  · exact .declareUnion _ s

theorem close (s : Symbols) : s.Grows s.close :=
  .of_types ⟨by simp [Symbols.close], rfl, rfl, rfl⟩ (.of_eq (sameTypes_close s).names)

theorem refresh (s : Symbols) : s.Grows s.refresh :=
  .of_types (extends_refresh s) (.of_eq (sameTypes_refresh s).names)

theorem declareConstant {name : String} {type : Nat} (h : s.declareConstant name type = .ok (id, s')) :
    s.Grows s' := by
  rw [Symbols.declareConstant] at h
  split at h
  · next constants hc =>
      obtain ⟨-, rfl⟩ := Prod.mk.inj (Except.ok.inj h)
      split
      · exact .refl s
      · have hadds : s.Grows { s with constants } := ⟨.of_eq rfl, .of_declare? hc, .of_eq rfl, .of_eq rfl⟩
        exact hadds.trans (.refresh _)
  · cases h

theorem declarePredicate {name : String} {signature : List Nat}
    (h : s.declarePredicate name signature = .ok (id, s')) : s.Grows s' := by
  rw [Symbols.declarePredicate] at h
  split at h
  · next predicates hp =>
      obtain ⟨-, rfl⟩ := Prod.mk.inj (Except.ok.inj h)
      exact ⟨.of_eq rfl, .of_eq rfl, .of_declare? hp, .of_eq rfl⟩
  · cases h

theorem declareTask {name : String} {signature : TaskSignature}
    (h : s.declareTask name signature = .ok (id, s')) : s.Grows s' := by
  rw [Symbols.declareTask] at h
  split at h
  · next tasks ht =>
      obtain ⟨-, rfl⟩ := Prod.mk.inj (Except.ok.inj h)
      exact ⟨.of_eq rfl, .of_eq rfl, .of_eq rfl, .of_declare? ht⟩
  · cases h

theorem apply (s : Symbols) (c : Change) : s.Grows (c.apply s) := by
  cases c with
  | declareType name => exact .declareType name s
  | addSupertype sub sup => exact .addSupertype sub sup s
  | declareUnion members => exact .declareUnion members s
  | resolve ref => exact after_induction (.refl s) fun _ _ => .resolve
  | declareConstant name type => exact after_induction (.refl s) fun _ _ => .declareConstant
  | declarePredicate name signature => exact after_induction (.refl s) fun _ _ => .declarePredicate
  | declareTask name signature => exact after_induction (.refl s) fun _ _ => .declareTask
  | close => exact .close s

end Grows

/-! ### What an id stands for -/

/-- A union of one type is that type, and any other has the name of the union. -/
def IsUnion (s : Symbols) (members : List Nat) (id : Nat) : Prop :=
  s.unionMembers members = [id] ∨
    (s.unionMembers members).length ≠ 1 ∧ s.typeNames[id]? = some (s.unionName (s.unionMembers members))

/-- The id is that of the type that the reference is one to. -/
def RefersTo (s : Symbols) (id : Nat) : Definition.TypeRef → Prop
  | .exactly name => s.typeNames[id]? = some name
  | .eitherOf [] => id = objectType
  | .eitherOf names => ∃ members, names.mapM s.knownType = .ok members ∧ s.IsUnion members id

/-- The id is one for what the operation declares or refers to. -/
def Change.Denotes (s : Symbols) (id : Nat) : Change → Prop
  | declareType name => s.typeNames[id]? = some name
  | declareUnion members => s.IsUnion members id
  | resolve ref => s.RefersTo id ref
  | declareConstant name type => s.constants.entries[id]? = some (name, type)
  | declarePredicate name signature => s.predicates.entries[id]? = some (name, signature)
  | declareTask name signature => s.tasks.entries[id]? = some (name, signature)
  | addSupertype _ _ => False
  | close => False

section LaterTypes

variable {ref : Definition.TypeRef} (h : s.typeNames <+: s'.typeNames)

include h

theorem length_types_of_isPrefix : s.types.length ≤ s'.types.length := by
  simpa using h.length_le

theorem typeId?_of_isPrefix {name : String} (hid : s.typeId? name = some id) : s'.typeId? name = some id := by
  obtain ⟨later, hlater⟩ := h
  rw [typeId?_eq_findIdx?] at hid ⊢
  rw [← hlater, List.findIdx?_append, hid]
  rfl

theorem mapM_knownType_of_isPrefix {names : List String} (hids : names.mapM s.knownType = .ok members) :
    names.mapM s'.knownType = .ok members := by
  rw [Except.mapM_eq_ok_iff] at hids ⊢
  exact hids.imp fun name t ht => knownType_eq_ok.mpr (typeId?_of_isPrefix h (knownType_eq_ok.mp ht))

/-- Types that come later are not members of what was a union before. -/
theorem unionMembers_of_isPrefix (hmembers : ∀ m ∈ members, m < s.types.length) :
    s'.unionMembers members = s.unionMembers members := by
  obtain ⟨k, hk⟩ := Nat.exists_eq_add_of_le (length_types_of_isPrefix h)
  have hlater : ((List.range k).map (s.types.length + ·)).filter members.contains = [] := by
    rw [List.filter_eq_nil_iff]
    intro t ht hmem
    obtain ⟨i, -, rfl⟩ := List.mem_map.mp ht
    exact absurd (hmembers _ (List.contains_iff_mem.mp hmem)) (Nat.not_lt.mpr (Nat.le_add_right _ _))
  rw [unionMembers, hk, List.range_add, List.filter_append, hlater, List.append_nil]
  rfl

theorem IsUnion.of_isPrefix (hmembers : ∀ m ∈ members, m < s.types.length) (hid : s.IsUnion members id) :
    s'.IsUnion members id := by
  have hname : s'.unionName (s.unionMembers members) = s.unionName (s.unionMembers members) := by
    obtain ⟨later, hlater⟩ := h
    exact unionName_eq hlater.symm fun m hm => (lt_of_mem_unionMembers hm).1
  rw [IsUnion, unionMembers_of_isPrefix h hmembers, hname]
  exact hid.imp_right fun hid => ⟨hid.1, getElem?_of_isPrefix h hid.2⟩

theorem RefersTo.of_isPrefix (hid : s.RefersTo id ref) : s'.RefersTo id ref := by
  match ref with
  | .exactly name => exact getElem?_of_isPrefix h hid
  | .eitherOf [] => exact hid
  | .eitherOf (name :: names) =>
      obtain ⟨members, hmembers, hid⟩ := hid
      exact ⟨members, mapM_knownType_of_isPrefix h hmembers, hid.of_isPrefix h (lt_of_mapM_knownType hmembers)⟩

end LaterTypes

theorem Grows.fits (h : s.Grows s') (hfits : c.Fits s) : c.Fits s' := by
  have hle := length_types_of_isPrefix h.types.kept
  cases c with
  | addSupertype sub sup => exact ⟨hfits.1.trans_le hle, hfits.2.trans_le hle⟩
  | declareUnion members => exact fun m hm => (hfits m hm).trans_le hle
  | declareConstant name type => exact hfits.trans_le hle
  | declarePredicate name signature => exact fun t ht => (hfits t ht).trans_le hle
  | declareTask name signature => exact fun t ht => (hfits t ht).trans_le hle
  | declareType name => trivial
  | resolve ref => trivial
  | close => trivial

theorem Grows.denotes (h : s.Grows s') (hfits : c.Fits s) (hid : c.Denotes s id) : c.Denotes s' id := by
  cases c with
  | declareType name => exact getElem?_of_isPrefix h.types.kept hid
  | declareUnion members => exact IsUnion.of_isPrefix h.types.kept hfits hid
  | resolve ref => exact RefersTo.of_isPrefix h.types.kept hid
  | declareConstant name type => exact getElem?_of_isPrefix h.constants.kept hid
  | declarePredicate name signature => exact getElem?_of_isPrefix h.predicates.kept hid
  | declareTask name signature => exact getElem?_of_isPrefix h.tasks.kept hid
  | addSupertype sub sup => exact hid
  | close => exact hid

theorem getElem?_declareType (name : String) (s : Symbols) :
    (s.declareType name).2.typeNames[(s.declareType name).1]? = some name := by
  cases hid : s.typeId? name with
  | some t =>
      rw [declareType_known hid]
      exact getElem?_typeNames_of_typeId? hid
  | none =>
      obtain ⟨ht, hnames, -⟩ := declareType_new hid
      rw [ht, hnames, ← length_typeNames, List.getElem?_concat_length]

theorem isUnion_declareUnion (hmembers : ∀ m ∈ members, m < s.types.length) :
    (s.declareUnion members).2.IsUnion members (s.declareUnion members).1 := by
  rcases declareUnion_cases members s with ⟨t, heq, hid⟩ | ⟨hone, -, ht, hnames, -⟩
  · rw [heq]
    exact hid
  · have htypes := (Grows.declareUnion members s).types.kept
    refine Or.inr ?_
    rw [unionMembers_of_isPrefix htypes hmembers, unionName_eq hnames fun m hm => (lt_of_mem_unionMembers hm).1, ht,
      hnames, ← length_typeNames, List.getElem?_concat_length]
    exact ⟨hone, rfl⟩

theorem refersTo_resolve {ref : Definition.TypeRef} (h : s.resolve ref = .ok (id, s')) :
    s'.RefersTo id ref := by
  match ref with
  | .exactly name =>
      obtain ⟨t, ht, heq⟩ := Except.map_eq_ok.mp h
      obtain ⟨rfl, rfl⟩ := Prod.mk.inj heq
      exact getElem?_typeNames_of_typeId? (knownType_eq_ok.mp ht)
  | .eitherOf [] => exact (Prod.mk.inj (Except.ok.inj h)).1.symm
  | .eitherOf (name :: names) =>
      have htypes := (Grows.resolve h).types.kept
      obtain ⟨members, hmembers, -⟩ := Except.bind_eq_ok.mp h
      have hne : members ≠ [] := by
        rintro rfl
        exact absurd (Except.mapM_eq_ok hmembers).1 (by simp)
      rw [resolve_eitherOf hmembers hne] at h
      have hunion := isUnion_declareUnion (lt_of_mapM_knownType hmembers)
      rw [Except.ok.inj h] at hunion
      exact ⟨members, mapM_knownType_of_isPrefix htypes hmembers, hunion⟩

theorem getElem?_declareConstant {name : String} {type : Nat} (h : s.declareConstant name type = .ok (id, s')) :
    s'.constants.entries[id]? = some (name, type) := by
  rw [declareConstant] at h
  split at h
  · next id' constants hc =>
      obtain ⟨rfl, rfl⟩ := Prod.mk.inj (Except.ok.inj h)
      have hentry := Catalog.getElem?_declare? hc
      by_cases hid : id' < s.constants.size
      · rw [if_pos hid, ← Catalog.eq_of_declare? hc hid]
        exact hentry
      · rw [if_neg hid, (extends_refresh _).constants]
        exact hentry
  · cases h

theorem getElem?_declarePredicate {name : String} {signature : List Nat}
    (h : s.declarePredicate name signature = .ok (id, s')) : s'.predicates.entries[id]? = some (name, signature) := by
  rw [declarePredicate] at h
  split at h
  · next predicates hp =>
      obtain ⟨rfl, rfl⟩ := Prod.mk.inj (Except.ok.inj h)
      exact Catalog.getElem?_declare? hp
  · cases h

theorem getElem?_declareTask {name : String} {signature : TaskSignature}
    (h : s.declareTask name signature = .ok (id, s')) : s'.tasks.entries[id]? = some (name, signature) := by
  rw [declareTask] at h
  split at h
  · next tasks ht =>
      obtain ⟨rfl, rfl⟩ := Prod.mk.inj (Except.ok.inj h)
      exact Catalog.getElem?_declare? ht
  · cases h

theorem of_map_some {r : Except GroundingError (Nat × Symbols)}
    (h : (r.map fun r => (some r.1, r.2)) = .ok (some id, s')) : r = .ok (id, s') := by
  obtain ⟨⟨id', s''⟩, rfl, heq⟩ := Except.map_eq_ok.mp h
  obtain ⟨hid, rfl⟩ := Prod.mk.inj heq
  obtain rfl := Option.some.inj hid
  rfl

/-- The id that an operation returns is one for what was asked for. -/
theorem denotes_of_result (hfits : c.Fits s) (h : c.result s = .ok (some id, s')) : c.Denotes s' id := by
  cases c with
  | declareType name =>
      obtain ⟨hid, rfl⟩ := Prod.mk.inj (Except.ok.inj h)
      obtain rfl := Option.some.inj hid
      exact getElem?_declareType name s
  | declareUnion members =>
      obtain ⟨hid, rfl⟩ := Prod.mk.inj (Except.ok.inj h)
      obtain rfl := Option.some.inj hid
      exact isUnion_declareUnion hfits
  | resolve ref => exact refersTo_resolve (of_map_some h)
  | declareConstant name type => exact getElem?_declareConstant (of_map_some h)
  | declarePredicate name signature => exact getElem?_declarePredicate (of_map_some h)
  | declareTask name signature => exact getElem?_declareTask (of_map_some h)
  | addSupertype sub sup => cases h
  | close => cases h

/-! ### Names that are there -/

theorem declareConstant_known {name : String} (hid : s.constants.id? name = some id) (type : Nat) :
    s.declareConstant name type =
      if s.constants.definition? id = some type then .ok (id, s) else .error (.conflict .constant name) := by
  have hlt : id < s.constants.size := (List.findIdx?_eq_some_iff_getElem.mp hid).1
  rw [declareConstant, Catalog.declare?, hid]
  dsimp only
  by_cases hd : s.constants.definition? id = some type
  · rw [if_pos hd, if_pos hd]
    dsimp only
    rw [if_pos hlt]
  · rw [if_neg hd, if_neg hd]

theorem declarePredicate_known {name : String} (hid : s.predicates.id? name = some id) (signature : List Nat) :
    s.declarePredicate name signature =
      if s.predicates.definition? id = some signature then .ok (id, s) else .error (.conflict .predicate name) := by
  rw [declarePredicate, Catalog.declare?, hid]
  dsimp only
  by_cases hd : s.predicates.definition? id = some signature
  · rw [if_pos hd, if_pos hd]
  · rw [if_neg hd, if_neg hd]

theorem declareTask_known {name : String} (hid : s.tasks.id? name = some id) (signature : TaskSignature) :
    s.declareTask name signature =
      if s.tasks.definition? id = some signature then .ok (id, s) else .error (.conflict .task name) := by
  rw [declareTask, Catalog.declare?, hid]
  dsimp only
  by_cases hd : s.tasks.definition? id = some signature
  · rw [if_pos hd, if_pos hd]
  · rw [if_neg hd, if_neg hd]

theorem resolve_eitherOf_unknown {names : List String} {name : String} (hname : name ∈ names)
    (hid : s.typeId? name = none) :
    ∃ n ∈ names, s.typeId? n = none ∧ s.resolve (.eitherOf names) = .error (.unknownType n) := by
  cases hids : names.mapM s.knownType with
  | ok ids =>
      obtain ⟨t, -, ht⟩ := Except.exists_of_mapM_eq_ok hids hname
      rw [knownType_eq_ok.mp ht] at hid
      cases hid
  | error e =>
      obtain ⟨n, hn, he⟩ := Except.exists_of_mapM_eq_error hids
      rw [knownType] at he
      cases hn' : s.typeId? n with
      | some t =>
          rw [hn'] at he
          cases he
      | none =>
          rw [hn'] at he
          obtain rfl := Except.error.inj he
          refine ⟨n, hn, hn', ?_⟩
          rw [resolve, hids]
          rfl

/-! ### Done again -/

theorem typeId?_of_getElem? (hs : s.typeNames.Nodup) {name : String} (h : s.typeNames[id]? = some name) :
    s.typeId? name = some id := by
  rw [typeId?_eq_findIdx?]
  exact (idxOf?_eq_some_iff_of_nodup hs).mpr h

theorem declareUnion_of_isUnion (hs : s.typeNames.Nodup) (h : s.IsUnion members id) :
    s.declareUnion members = (id, s) := by
  rw [declareUnion]
  rcases h with hone | ⟨hmany, hname⟩
  · rw [hone]
  · split
    · next t ht => simp [ht] at hmany
    · rw [typeId?_of_getElem? hs hname]

/-- A type that was found once is found again, and nothing more happens. -/
theorem resolve_of_refersTo {ref : Definition.TypeRef} (hs : s.typeNames.Nodup) (h : s.RefersTo id ref) :
    s.resolve ref = .ok (id, s) := by
  match ref with
  | .exactly name =>
      rw [resolve, knownType_eq_ok.mpr (typeId?_of_getElem? hs h)]
      rfl
  | .eitherOf [] =>
      obtain rfl : id = objectType := h
      rfl
  | .eitherOf (name :: names) =>
      obtain ⟨members, hmembers, hunion⟩ := h
      have hne : members ≠ [] := by
        rintro rfl
        exact absurd (Except.mapM_eq_ok hmembers).1 (by simp)
      rw [resolve_eitherOf hmembers hne, declareUnion_of_isUnion hs hunion]

end Symbols

end HtnPlanner
