import HtnPlanner.Proofs.Symbols.Representation

/-!
The lists and maps that the symbols are kept in move together, whatever is done. A number stays that of its name, and
what is at its place in the other lists stays there too.
-/

namespace HtnPlanner

open Symbols (objectType Change History)

namespace SymbolTables

/-- The numbers of each family are those below its size, each has a name of its own, and every other list of the family
has an entry for each of them. -/
structure Numbered (t : SymbolTables) : Prop where
  types : Numbering t.types.members.length (t.types.numbers[·]?) (t.types.members[·]?)
  supertypes : t.supertypes.length = t.types.members.length
  domains : t.domains.length = t.types.members.length
  constants : Numbering t.constants.members.length (t.constants.numbers[·]?) (t.constants.members[·]?)
  constantTypes : t.constantTypes.length = t.constants.members.length
  predicates : Numbering t.predicates.members.length (t.predicates.numbers[·]?) (t.predicates.members[·]?)
  signatures : t.signatures.length = t.predicates.members.length
  tasks : Numbering t.tasks.members.length (t.tasks.numbers[·]?) (t.tasks.members[·]?)
  taskSignatures : t.taskSignatures.length = t.tasks.members.length
  primitiveTasks : t.primitiveTasks.length = t.tasks.members.length

/-- Names keep their numbers, and what they were declared as is still at their places. -/
structure Keeps (t t' : SymbolTables) : Prop where
  types : t.types.Kept t'.types
  constants : t.constants.Kept t'.constants
  constantTypes : t.constantTypes <+: t'.constantTypes
  predicates : t.predicates.Kept t'.predicates
  signatures : t.signatures <+: t'.signatures
  tasks : t.tasks.Kept t'.tasks
  taskSignatures : t.taskSignatures <+: t'.taskSignatures
  primitiveTasks : t.primitiveTasks <+: t'.primitiveTasks

/-- A union of one type is that type, and any other has the name of the union. -/
def IsUnion (t : SymbolTables) (members : List Nat) (i : Nat) : Prop :=
  sortedMembers members = [i] ∨ (sortedMembers members).length ≠ 1 ∧
    ∃ name, t.unionName? (sortedMembers members) = some name ∧ t.types.members[i]? = some name

/-- The number is that of the type that the reference is one to. -/
def RefersTo (t : SymbolTables) (i : Nat) : Definition.TypeRef → Prop
  | .exactly name => t.types.members[i]? = some name
  | .eitherOf [] => i = objectType
  | .eitherOf names => ∃ members, names.mapM (t.types.numbers[·]?) = some members ∧ t.IsUnion members i

/-- The number is one for what the operation declares or refers to. -/
def Denotes (t : SymbolTables) (i : Nat) : Change → Prop
  | .declareType name => t.types.members[i]? = some name
  | .declareUnion members => t.IsUnion members i
  | .resolve ref => t.RefersTo i ref
  | .declareConstant name type => t.constants.members[i]? = some name ∧ t.constantTypes[i]? = some type
  | .declarePredicate name signature => t.predicates.members[i]? = some name ∧ t.signatures[i]? = some signature
  | .declareTask name signature => t.tasks.members[i]? = some name ∧
      t.taskSignatures[i]? = some signature.parameters ∧ t.primitiveTasks[i]? = some signature.primitive
  | .addSupertype _ _ => False
  | .close => False

variable {t t' : SymbolTables} {s s' : Symbols} {c : Change} {changes : List Change} {members : List Nat} {i : Nat}

/-! ### Numbers -/

theorem Represents.numbered (h : t.Represents s) : t.Numbered where
  types := by simpa using h.types.numbering
  supertypes := by rw [h.length_types, h.supertypes, Symbols.above, List.length_map]
  domains := h.length_domains.trans h.length_types.symm
  constants := by simpa using h.constants.numbering
  constantTypes := by rw [h.constantTypes, h.constants.members, Catalog.names, List.length_map, List.length_map]
  predicates := by simpa using h.predicates.numbering
  signatures := by rw [h.signatures, h.predicates.members, Catalog.names, List.length_map, List.length_map]
  tasks := by simpa using h.tasks.numbering
  taskSignatures := by rw [h.taskSignatures, h.tasks.members, Catalog.names, List.length_map, List.length_map]
  primitiveTasks := by rw [h.primitiveTasks, h.tasks.members, Catalog.names, List.length_map, List.length_map]

/-- Where the symbols have grown, the tables have kept what they had. -/
theorem Represents.keeps (h : t.Represents s) (h' : t'.Represents s') (hgrows : s.Grows s') : t.Keeps t' where
  types := h.types.kept h'.types hgrows.types.kept
  constants := h.constants.kept h'.constants (hgrows.constants.kept.map _)
  constantTypes := by
    rw [h.constantTypes, h'.constantTypes]
    exact hgrows.constants.kept.map _
  predicates := h.predicates.kept h'.predicates (hgrows.predicates.kept.map _)
  signatures := by
    rw [h.signatures, h'.signatures]
    exact hgrows.predicates.kept.map _
  tasks := h.tasks.kept h'.tasks (hgrows.tasks.kept.map _)
  taskSignatures := by
    rw [h.taskSignatures, h'.taskSignatures]
    exact hgrows.tasks.kept.map _
  primitiveTasks := by
    rw [h.primitiveTasks, h'.primitiveTasks]
    exact hgrows.tasks.kept.map _

theorem grows_run (history : History) (changes : List Change) :
    history.symbols.Grows (history.run changes).symbols := by
  induction changes generalizing history with
  | nil => exact .refl _
  | cons c changes ih => exact (Symbols.Grows.apply history.symbols c).trans (ih (history.step c))

/-! ### What a number stands for -/

theorem Represents.isUnion (h : t.Represents s) (hmembers : ∀ m ∈ members, m < s.types.length)
    (hi : s.IsUnion members i) : t.IsUnion members i := by
  rw [IsUnion, sortedMembers_eq hmembers]
  refine hi.imp_right fun hi => ⟨hi.1, _, h.unionName? fun m hm => (Symbols.lt_of_mem_unionMembers hm).1, ?_⟩
  rw [h.types.members]
  exact hi.2

theorem Represents.mapM_numbers (h : t.Represents s) {names : List String}
    (hids : names.mapM s.knownType = .ok members) :
    names.mapM (t.types.numbers[·]?) = some members := by
  rw [Except.mapM_eq_ok_iff] at hids
  induction hids with
  | nil => rfl
  | cons hname _ ih =>
      rw [List.mapM_cons, h.typeId?, Symbols.knownType_eq_ok.mp hname, ih]
      rfl

theorem Represents.refersTo (h : t.Represents s) {ref : Definition.TypeRef} (hi : s.RefersTo i ref) :
    t.RefersTo i ref := by
  match ref with
  | .exactly name =>
      rw [RefersTo, h.types.members]
      exact hi
  | .eitherOf [] => exact hi
  | .eitherOf (name :: names) =>
      obtain ⟨members, hmembers, hi⟩ := hi
      exact ⟨members, h.mapM_numbers hmembers, h.isUnion (Symbols.lt_of_mapM_knownType hmembers) hi⟩

theorem Represents.denotes (h : t.Represents s) (hfits : c.Fits s) (hi : c.Denotes s i) : t.Denotes i c := by
  cases c with
  | declareType name =>
      rw [Denotes, h.types.members]
      exact hi
  | declareUnion members => exact h.isUnion hfits hi
  | resolve ref => exact h.refersTo hi
  | declareConstant name type =>
      rw [Denotes, h.constants.members, h.constantTypes, Catalog.names, List.getElem?_map, List.getElem?_map, hi]
      exact ⟨rfl, rfl⟩
  | declarePredicate name signature =>
      rw [Denotes, h.predicates.members, h.signatures, Catalog.names, List.getElem?_map, List.getElem?_map, hi]
      exact ⟨rfl, rfl⟩
  | declareTask name signature =>
      rw [Denotes, h.tasks.members, h.taskSignatures, h.primitiveTasks, Catalog.names, List.getElem?_map,
        List.getElem?_map, List.getElem?_map, hi]
      exact ⟨rfl, rfl, rfl⟩
  | addSupertype sub sup => exact hi
  | close => exact hi

/-! ### Done again -/

namespace InPlace

theorem knownType_known {name : String} (hi : t.types.numbers[name]? = some i) :
    knownType name t = some (.ok i, t) := by
  rw [knownType, get_bind, hi]
  rfl

theorem mapM_knownType_known {names : List String} (hmembers : names.mapM (t.types.numbers[·]?) = some members) :
    names.mapM knownType t = some (.ok members, t) := by
  induction names generalizing members with
  | nil =>
      obtain rfl := Option.some.inj hmembers
      rfl
  | cons name names ih =>
      rw [List.mapM_cons] at hmembers ⊢
      obtain ⟨i, hi, hmembers⟩ := Option.bind_eq_some_iff.mp hmembers
      obtain ⟨rest, hrest, hmembers⟩ := Option.bind_eq_some_iff.mp hmembers
      obtain rfl := Option.some.inj hmembers
      rw [bind_ok (knownType_known hi), bind_ok (ih hrest)]
      rfl

end InPlace

open InPlace in
theorem Numbered.declareUnion_eq (ht : t.Numbered) (hi : t.IsUnion members i) :
    declareUnion members t = some (.ok i, t) := by
  rcases hi with hone | ⟨hmany, name, hname, hi⟩
  · rw [declareUnion, hone]
    rfl
  · have habove : declareUnion members = declareAbove (sortedMembers members) := by
      rw [declareUnion]
      split
      · next j hj => simp [hj] at hmany
      · rfl
    rw [habove, declareAbove, bind_ok (find_eq hname), get_bind, (ht.types.id_iff name i).mpr hi]
    rfl

open InPlace in
theorem Numbered.resolve_eq (ht : t.Numbered) {ref : Definition.TypeRef} (hi : t.RefersTo i ref) :
    resolve ref t = some (.ok i, t) := by
  match ref with
  | .exactly name => exact knownType_known ((ht.types.id_iff name i).mpr hi)
  | .eitherOf [] =>
      obtain rfl : i = objectType := hi
      rfl
  | .eitherOf (name :: names) =>
      obtain ⟨members, hmembers, hi⟩ := hi
      rw [resolve, bind_ok (mapM_knownType_known hmembers)]
      cases members with
      | nil => simp [List.mapM_cons, Option.bind_eq_some_iff] at hmembers
      | cons m members => exact ht.declareUnion_eq hi

section Known

variable {name : String} (h : t.Represents s)

include h

/-- A constant that is there can be declared again with its type, and with no other. -/
theorem Represents.declareConstant_known (hi : t.constants.numbers[name]? = some i) :
    ∃ type, t.constantTypes[i]? = some type ∧ ∀ type', perform (.declareConstant name type') t =
      some (if type = type' then .ok (some i) else .error (.conflict .constant name), t) := by
  obtain ⟨type, htype, hdeclare⟩ := h.constants_family.declare_known hi
  refine ⟨type, (h.constantType i).trans htype, fun type' => ?_⟩
  refine (InPlace.map_eq (hdeclare type') some).trans ?_
  rw [apply_ite (Except.map some)]
  rfl

theorem Represents.declarePredicate_known (hi : t.predicates.numbers[name]? = some i) :
    ∃ signature, t.signatures[i]? = some signature ∧ ∀ signature', perform (.declarePredicate name signature') t =
      some (if signature = signature' then .ok (some i) else .error (.conflict .predicate name), t) := by
  obtain ⟨signature, hsignature, hdeclare⟩ := h.predicates_family.declare_known hi
  refine ⟨signature, (h.signature i).trans hsignature, fun signature' => ?_⟩
  refine (InPlace.map_eq (hdeclare signature') some).trans ?_
  rw [apply_ite (Except.map some)]
  rfl

theorem Represents.declareTask_known (hi : t.tasks.numbers[name]? = some i) :
    ∃ signature : TaskSignature, t.taskSignatures[i]? = some signature.parameters ∧
      t.primitiveTasks[i]? = some signature.primitive ∧ ∀ signature', perform (.declareTask name signature') t =
        some (if signature = signature' then .ok (some i) else .error (.conflict .task name), t) := by
  obtain ⟨signature, hsignature, hdeclare⟩ := h.tasks_family.declare_known hi
  obtain ⟨hparameters, hprimitive⟩ := h.taskSignature hsignature
  refine ⟨signature, hparameters, hprimitive, fun signature' => ?_⟩
  refine (InPlace.map_eq (hdeclare signature') some).trans ?_
  rw [apply_ite (Except.map some)]
  rfl

/-- Done again, an operation returns the number that it returned, and changes nothing. -/
theorem Represents.perform_of_denotes (hi : t.Denotes i c) : perform c t = some (.ok (some i), t) := by
  have ht := h.numbered
  cases c with
  | declareType name => exact InPlace.map_eq (InPlace.declareType_known ((ht.types.id_iff name i).mpr hi)) some
  | declareUnion members => exact InPlace.map_eq (ht.declareUnion_eq hi) some
  | resolve ref => exact InPlace.map_eq (ht.resolve_eq hi) some
  | declareConstant name type =>
      obtain ⟨type', htype, hdeclare⟩ := h.declareConstant_known ((ht.constants.id_iff name i).mpr hi.1)
      obtain rfl := Option.some.inj (htype.symm.trans hi.2)
      exact (hdeclare type').trans (by rw [if_pos rfl])
  | declarePredicate name signature =>
      obtain ⟨signature', hsignature, hdeclare⟩ := h.declarePredicate_known ((ht.predicates.id_iff name i).mpr hi.1)
      obtain rfl := Option.some.inj (hsignature.symm.trans hi.2)
      exact (hdeclare signature').trans (by rw [if_pos rfl])
  | declareTask name signature =>
      obtain ⟨hname, hparameters, hprimitive⟩ := hi
      obtain ⟨signature', hparameters', hprimitive', hdeclare⟩ :=
        h.declareTask_known ((ht.tasks.id_iff name i).mpr hname)
      obtain rfl : signature' = signature := by
        obtain ⟨parameters, primitive⟩ := signature
        obtain ⟨parameters', primitive'⟩ := signature'
        obtain rfl := Option.some.inj (hparameters'.symm.trans hparameters)
        obtain rfl := Option.some.inj (hprimitive'.symm.trans hprimitive)
        rfl
      exact (hdeclare signature').trans (by rw [if_pos rfl])
  | addSupertype sub sup => exact absurd hi not_false
  | close => exact absurd hi not_false

/-- A union with an unknown member fails, by the name of a member that is not known. -/
theorem Represents.resolve_unknown {names : List String} (hname : name ∈ names) (hi : t.types.numbers[name]? = none) :
    ∃ n ∈ names, t.types.numbers[n]? = none ∧
      perform (.resolve (.eitherOf names)) t = some (.error (.unknownType n), t) := by
  obtain ⟨n, hn, hunknown, hresolve⟩ := Symbols.resolve_eitherOf_unknown hname ((h.typeId? name).symm.trans hi)
  have hsimulates := InPlace.resolve_simulates h (.eitherOf names)
  rw [hresolve] at hsimulates
  exact ⟨n, hn, (h.typeId? n).trans hunknown, InPlace.map_eq hsimulates some⟩

end Known

/-! ### Sequences of operations -/

/-- What is done to tables that represent symbols can be done to the end, and keeps what the tables hold. -/
theorem Represents.kept_by_performAll (history : History) (h : t.Represents history.symbols)
    (hadmits : t.AdmitsAll changes) :
    ∃ t', t.performAll changes = some t' ∧ t'.Represents (history.run changes).symbols ∧ t.Keeps t' := by
  obtain ⟨t', hrun, ht'⟩ := performAll_represents history h ((admitsAll_iff history h).mp hadmits)
  exact ⟨t', hrun, ht', h.keeps ht' (grows_run history changes)⟩

/-- An operation fails and has changed nothing, or the number that it returns is one for what was asked for. That stays
so, and what was asked for can be asked for again, which changes nothing. -/
theorem Represents.perform_kept (h : t.Represents s) (hadmits : t.Admits c) :
    ∃ r t', perform c t = some (r, t') ∧ (∀ e, r = .error e → t' = t) ∧
      ∀ i, r = .ok (some i) → ∀ later, t'.AdmitsAll later →
        ∃ t'', t'.performAll later = some t'' ∧ t''.Denotes i c ∧ perform c t'' = some (.ok (some i), t'') := by
  have hfits := h.admits_iff.mp hadmits
  obtain ⟨t', hrun, ht', herror⟩ := perform_eq h hfits
  refine ⟨_, t', hrun, fun e he => herror e ?_, fun i hi later hlater => ?_⟩
  · cases hr : c.result s with
    | ok r => rw [hr] at he; cases he
    | error e' =>
        rw [hr] at he
        exact congrArg Except.error (Except.error.inj he)
  · obtain ⟨⟨_, s'⟩, hresult, rfl⟩ := Except.map_eq_ok.mp hi
    have hs' : c.apply s = s' := by rw [Change.apply_eq, hresult]
    let history : History := { symbols := c.apply s }
    have hdenotes : c.Denotes (c.apply s) i := hs' ▸ Symbols.denotes_of_result hfits hresult
    have hlaterFits := (Symbols.Grows.apply s c).fits hfits
    have hgrows := grows_run history later
    obtain ⟨t'', hrun', ht'', -⟩ := Represents.kept_by_performAll history ht' hlater
    have hi' := ht''.denotes (hgrows.fits hlaterFits) (hgrows.denotes hlaterFits hdenotes)
    exact ⟨t'', hrun', hi', ht''.perform_of_denotes hi'⟩

/-- Operations that mention types by their numbers only if those types are there get through, and leave tables that
represent the symbols. In each family the numbers are those below its size, each with a name of its own and with an
entry in every list, and what is done later keeps all of that. An operation that fails leaves every table as it was.
The number that one returns stays that of what was asked for, and asking again returns it and changes nothing. A name
that is there is found if it is declared as it was, and any other definition is a conflict. A union of types of which
one is unknown fails. -/
theorem tables_kept_by_operations (changes : List Change) (hadmits : start.AdmitsAll changes) :
    ∃ t, start.performAll changes = some t ∧ t.Represents (History.run {} changes).symbols ∧ t.Numbered ∧
      (∀ later, t.AdmitsAll later → ∃ t', t.performAll later = some t' ∧ t'.Numbered ∧ t.Keeps t') ∧
      (∀ c, t.Admits c → ∃ r t', perform c t = some (r, t') ∧ (∀ e, r = .error e → t' = t) ∧
        ∀ i, r = .ok (some i) → ∀ later, t'.AdmitsAll later →
          ∃ t'', t'.performAll later = some t'' ∧ t''.Denotes i c ∧ perform c t'' = some (.ok (some i), t'')) ∧
      (∀ name i, t.types.numbers[name]? = some i → perform (.declareType name) t = some (.ok (some i), t)) ∧
      (∀ name i, t.constants.numbers[name]? = some i → ∃ type, t.constantTypes[i]? = some type ∧
        ∀ type', perform (.declareConstant name type') t =
          some (if type = type' then .ok (some i) else .error (.conflict .constant name), t)) ∧
      (∀ name i, t.predicates.numbers[name]? = some i → ∃ signature, t.signatures[i]? = some signature ∧
        ∀ signature', perform (.declarePredicate name signature') t =
          some (if signature = signature' then .ok (some i) else .error (.conflict .predicate name), t)) ∧
      (∀ name i, t.tasks.numbers[name]? = some i → ∃ signature : TaskSignature,
        t.taskSignatures[i]? = some signature.parameters ∧ t.primitiveTasks[i]? = some signature.primitive ∧
          ∀ signature', perform (.declareTask name signature') t =
            some (if signature = signature' then .ok (some i) else .error (.conflict .task name), t)) ∧
      ∀ names, ∀ name ∈ names, t.types.numbers[name]? = none → ∃ n ∈ names, t.types.numbers[n]? = none ∧
        perform (.resolve (.eitherOf names)) t = some (.error (.unknownType n), t) := by
  obtain ⟨t, hrun, ht, -⟩ := Represents.kept_by_performAll {} start_represents hadmits
  refine ⟨t, hrun, ht, ht.numbered, fun later hlater => ?_, fun c hc => ht.perform_kept hc, fun name i hi => ?_,
    fun name i => ht.declareConstant_known, fun name i => ht.declarePredicate_known,
    fun name i => ht.declareTask_known, fun names name => ht.resolve_unknown⟩
  · obtain ⟨t', hrun', ht', hkeeps⟩ := Represents.kept_by_performAll _ ht hlater
    exact ⟨t', hrun', ht'.numbered, hkeeps⟩
  · exact InPlace.map_eq (InPlace.declareType_known hi) some

/-- Two types are below each other, a union is declared on the way, and one constant is declared twice. -/
def repeatedChanges : List Change :=
  [.declareType "crate", .declareType "truck", .addSupertype 1 2, .addSupertype 2 1, .declareConstant "c" 1, .close,
    .resolve (.eitherOf ["truck", "crate"]), .declareConstant "c" 2, .declareTask "move" ⟨[1, 3], true⟩]

theorem tables_kept_by_operations_repeated : start.AdmitsAll repeatedChanges ∧
    ∃ t, start.performAll repeatedChanges = some t ∧
      t.types.members = ["object", "crate", "truck", "either~crate~truck"] ∧ t.constantTypes = [1] ∧
      t.taskSignatures = [[1, 3]] ∧ t.primitiveTasks = [true] ∧ t.Numbered ∧
      perform (.declareConstant "c" 1) t = some (.ok (some 0), t) ∧
      perform (.declareConstant "c" 2) t = some (.error (.conflict .constant "c"), t) ∧
      ∃ n ∈ ["truck", "ship"], t.types.numbers[n]? = none ∧
        perform (.resolve (.eitherOf ["truck", "ship"])) t = some (.error (.unknownType n), t) := by
  have hadmits : start.AdmitsAll repeatedChanges :=
    (admitsAll_iff {} start_represents).mpr (by decide +kernel)
  obtain ⟨t, hrun, ht, hnumbered, -, -, -, hconstants, -, -, hunknown⟩ :=
    tables_kept_by_operations repeatedChanges hadmits
  have hnames : t.types.members = ["object", "crate", "truck", "either~crate~truck"] :=
    ht.types.members.trans (by decide +kernel)
  have hconstantTypes : t.constantTypes = [1] := ht.constantTypes.trans (by decide +kernel)
  have htasks : t.taskSignatures = [[1, 3]] := ht.taskSignatures.trans (by decide +kernel)
  have hprimitive : t.primitiveTasks = [true] := ht.primitiveTasks.trans (by decide +kernel)
  have hc : t.constants.numbers["c"]? = some 0 := (ht.constants.numbers "c").trans (by decide +kernel)
  have hship : t.types.numbers["ship"]? = none := (ht.types.numbers "ship").trans (by decide +kernel)
  obtain ⟨type, htype, hdeclare⟩ := hconstants "c" 0 hc
  obtain rfl : 1 = type := Option.some.inj (by simpa [hconstantTypes] using htype)
  exact ⟨hadmits, t, hrun, hnames, hconstantTypes, htasks, hprimitive, hnumbered, hdeclare 1, hdeclare 2,
    hunknown _ "ship" (by simp) hship⟩

end SymbolTables

end HtnPlanner
