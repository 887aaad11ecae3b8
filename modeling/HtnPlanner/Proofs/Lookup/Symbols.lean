import HtnPlanner.Proofs.Lifted.Naming
import HtnPlanner.Proofs.Lookup.Basic
import HtnPlanner.Proofs.Symbols.Walks
import HtnPlanner.Symbols.Checked

/-!
The tables of symbols mention types only that are there, whatever is declared.
-/

namespace HtnPlanner

namespace Symbols

/-- The tables mention types only that are there, and `t` is one of those. -/
structure IsType (t : Nat) (s : Symbols) : Prop where
  linked : s.Linked
  lt : t < s.types.length

variable {s : Symbols} {t : Nat}

theorem Linked.close (h : s.Linked) : s.close.Linked := by
  have hlength : s.close.types.length = s.types.length := by simp [Symbols.close]
  refine ⟨hlength ▸ h.object, fun entry hentry u hu => ?_, fun e he => hlength ▸ h.constants e he⟩
  simp only [Symbols.close, List.mem_mapIdx] at hentry
  obtain ⟨i, hi, rfl⟩ := hentry
  exact hlength ▸ h.supertypes _ (List.getElem_mem hi) u hu

theorem Linked.refresh (h : s.Linked) : s.refresh.Linked := by
  rw [Symbols.refresh]
  split
  · exact h.close
  · exact h

theorem Linked.addType (h : s.Linked) (name : String) :
    Linked { s with types := s.types ++ [⟨name, [objectType], []⟩] } := by
  have hlt : ∀ u < s.types.length, u < (s.types ++ [(⟨name, [objectType], []⟩ : TypeEntry)]).length := by
    intro u hu
    simp only [List.length_append, List.length_singleton]
    omega
  refine ⟨hlt _ h.object, fun entry hentry u hu => hlt u ?_, fun e he => hlt _ (h.constants e he)⟩
  rcases List.mem_append.mp hentry with hentry | hentry
  · exact h.supertypes entry hentry u hu
  · obtain rfl := List.mem_singleton.mp hentry
    obtain rfl := List.mem_singleton.mp hu
    exact h.object

theorem Linked.link (h : s.Linked) (sub : Nat) (ht : t < s.types.length) :
    Linked { s with types := s.types.modify sub (TypeEntry.addSupertype t) } := by
  have hlength : (s.types.modify sub (TypeEntry.addSupertype t)).length = s.types.length := by simp
  refine ⟨hlength ▸ h.object, fun entry hentry u hu => hlength ▸ ?_, fun e he => hlength ▸ h.constants e he⟩
  obtain ⟨i, hi, rfl⟩ := List.mem_iff_getElem.mp hentry
  rw [List.getElem_modify] at hu
  split at hu
  · rcases List.mem_append.mp hu with hu | hu
    · exact h.supertypes _ (List.getElem_mem _) u hu
    · exact List.mem_singleton.mp hu ▸ ht
  · exact h.supertypes _ (List.getElem_mem _) u hu

theorem Linked.addConstant (h : s.Linked) {constants : Catalog Nat} {name : String} {id : Nat}
    (ht : t < s.types.length) (hdeclare : s.constants.declare? name t = some (id, constants)) :
    Linked { s with constants } := by
  refine ⟨h.object, h.supertypes, ?_⟩
  rw [Catalog.declare?] at hdeclare
  split at hdeclare
  · obtain ⟨-, rfl⟩ := Prod.mk.inj (Option.some.inj hdeclare)
    intro e he
    rcases List.mem_append.mp he with he | he
    · exact h.constants e he
    · obtain rfl := List.mem_singleton.mp he
      exact ht
  · simp only [Option.ite_none_right_eq_some, Option.some.injEq, Prod.mk.injEq] at hdeclare
    obtain ⟨-, -, rfl⟩ := hdeclare
    exact h.constants

end Symbols

namespace Lookup

open Symbols (Linked IsType)

variable {s : Symbols}

/-- `Symbols.close`, which walks up from the type of each constant. -/
def close (s : Symbols) : Option Symbols := do
  let domains ← fillAll s.above (s.constants.entries.map (·.2)) (s.types.map fun _ => ∅)
  some { s with
    types := s.types.zipWith (fun entry domain => { entry with domain := domain.toList }) domains
    closed := true }

def refresh (s : Symbols) : Option Symbols := if s.closed then close s else some s

def declareType (name : String) (s : Symbols) : Option (Nat × Symbols) :=
  match s.typeId? name with
  | some t => some (t, s)
  | none =>
    (refresh { s with types := s.types ++ [⟨name, [Symbols.objectType], []⟩] }).map (s.types.length, ·)

def addSupertype (sub sup : Nat) (s : Symbols) : Option Symbols :=
  if sub = sup then some s
  else do
    let entry ← s.types[sub]?
    if sup ∈ entry.supertypes then some s
    else refresh { s with types := s.types.modify sub (TypeEntry.addSupertype sup) }

def declareAbove (members : List Nat) (s : Symbols) : Option (Nat × Symbols) :=
  match s.typeId? (s.unionName members) with
  | some t => some (t, s)
  | none => do
    let (t, s) ← declareType (s.unionName members) s
    let s ← members.foldlM (fun s member => addSupertype member t s) s
    some (t, s)

def declareUnion (members : List Nat) (s : Symbols) : Option (Nat × Symbols) :=
  if members.all s.hasType then
    match s.unionMembers members with
    | [t] => some (t, s)
    | ts => declareAbove ts s
  else
    none

def resolveType (ref : Definition.TypeRef) (s : Symbols) : Work (Nat × Symbols) :=
  match ref with
  | .exactly name => ofExcept ((s.knownType name).map (·, s))
  | .eitherOf names => do
    match ← ofExcept (names.mapM s.knownType) with
    | [] => pure (Symbols.objectType, s)
    | members => ExceptT.lift (declareUnion members s)

def declare {α : Type} [DecidableEq α] (c : Catalog α) (name : String) (d : α) :
    Option (Option (Nat × Catalog α)) :=
  match c.id? name with
  | none => some (some (c.size, ⟨c.entries ++ [(name, d)]⟩))
  | some id => (c.definition? id).map fun e => if e = d then some (id, c) else none

def declareConstant (name : String) (type : Nat) (s : Symbols) : Work (Nat × Symbols) := do
  match ← ExceptT.lift (declare s.constants name type) with
  | some (id, constants) =>
    if id < s.constants.size then pure (id, s)
    else ExceptT.lift ((refresh { s with constants }).map (id, ·))
  | none => throw (.conflict .constant name)

def declarePredicate (name : String) (signature : List Nat) (s : Symbols) : Work (Nat × Symbols) := do
  match ← ExceptT.lift (declare s.predicates name signature) with
  | some (id, predicates) => pure (id, { s with predicates })
  | none => throw (.conflict .predicate name)

def declareTask (name : String) (signature : TaskSignature) (s : Symbols) : Work (Nat × Symbols) := do
  match ← ExceptT.lift (declare s.tasks name signature) with
  | some (id, tasks) => pure (id, { s with tasks })
  | none => throw (.conflict .task name)

theorem close_eq (h : s.Linked) : close s = some s.close := by
  obtain ⟨domains, hfill, hdomains⟩ := fillAll_eq h (l := s.types) rfl
  have hlength : domains.length = s.types.length := by simpa [Symbols.close] using congrArg List.length hdomains
  have htypes : s.types.zipWith (fun entry domain => { entry with domain := domain.toList }) domains =
      s.close.types := by
    refine List.ext_getElem (by simp [hlength, Symbols.close]) fun i hi hi' => ?_
    have hlt : i < (domains.map (·.toList)).length := by simpa [hlength, Symbols.close] using hi'
    have hdomain := List.getElem_of_eq hdomains hlt
    simp only [Symbols.close, List.getElem_map, List.getElem_mapIdx] at hdomain
    simp only [Symbols.close, List.getElem_zipWith, List.getElem_mapIdx, hdomain]
  rw [close, hfill, Option.bind_eq_bind, Option.bind_some, htypes]
  rfl

theorem refresh_eq (h : s.Linked) : refresh s = some s.refresh := by
  rw [refresh, Symbols.refresh, close_eq h]
  split <;> rfl

theorem declareType_eq (h : s.Linked) (name : String) :
    declareType name s = some (s.declareType name) ∧ IsType (s.declareType name).1 (s.declareType name).2 := by
  have hlt := (Symbols.follows_declareType name s).2
  rw [declareType]
  cases hid : s.typeId? name with
  | some t =>
      have hdeclare : s.declareType name = (t, s) := by simp [Symbols.declareType, hid]
      rw [hdeclare] at hlt ⊢
      exact ⟨rfl, h, hlt⟩
  | none =>
      have hadd := h.addType name
      have hdeclare : s.declareType name =
          (s.types.length, Symbols.refresh { s with types := s.types ++ [⟨name, [Symbols.objectType], []⟩] }) := by
        simp [Symbols.declareType, hid]
      rw [hdeclare] at hlt ⊢
      exact ⟨by rw [refresh_eq hadd]; rfl, hadd.refresh, hlt⟩

theorem addSupertype_eq {sub sup : Nat} (h : IsType sup s) (hsub : sub < s.types.length) :
    addSupertype sub sup s = some (s.addSupertype sub sup) ∧ (s.addSupertype sub sup).Linked := by
  have hentry : s.types[sub]? = some s.types[sub] := List.getElem?_eq_getElem hsub
  have hsupertypes : s.supertypes sub = s.types[sub].supertypes := by simp [Symbols.supertypes, hentry]
  rw [addSupertype, Symbols.addSupertype, hsupertypes]
  by_cases heq : sub = sup
  · simp [heq, h.linked]
  by_cases hmem : sup ∈ s.types[sub].supertypes
  · simp [heq, hentry, hmem, h.linked]
  · have hlink := h.linked.link sub h.lt
    simp only [heq, hmem, or_self, if_false, hentry, Option.bind_eq_bind, Option.bind_some]
    exact ⟨refresh_eq hlink, hlink.refresh⟩

/-- The types below a new union are there all the time that they are linked to it. -/
theorem foldlM_addSupertype_eq {t : Nat} {members : List Nat} (h : IsType t s)
    (hmembers : ∀ m ∈ members, m < s.types.length) :
    members.foldlM (fun s member => addSupertype member t s) s =
        some (members.foldl (fun s member => s.addSupertype member t) s) ∧
      IsType t (members.foldl (fun s member => s.addSupertype member t) s) := by
  refine And.imp_right And.left (foldlM_eq_some
    (P := fun s' => IsType t s' ∧ s.types.length ≤ s'.types.length) (fun m hm s' hs' => ?_) ⟨h, Nat.le_refl _⟩)
  obtain ⟨htypes, hle⟩ := hs'
  obtain ⟨hadd, hlinked⟩ := addSupertype_eq htypes (Nat.lt_of_lt_of_le (hmembers m hm) hle)
  have hgrows := (Symbols.follows_addSupertype m t s').types
  exact ⟨hadd, ⟨hlinked, Nat.lt_of_lt_of_le htypes.lt hgrows⟩, Nat.le_trans hle hgrows⟩

theorem declareAbove_eq (h : s.Linked) {members : List Nat} (hmembers : ∀ m ∈ members, m < s.types.length)
    {r : Nat × Symbols}
    (hr : r = match s.typeId? (s.unionName members) with
      | some t => (t, s)
      | none =>
        let (t, s) := s.declareType (s.unionName members)
        (t, members.foldl (fun s member => s.addSupertype member t) s)) :
    declareAbove members s = some r ∧ IsType r.1 r.2 := by
  rw [declareAbove]
  cases hid : s.typeId? (s.unionName members) with
  | some t =>
      obtain rfl : r = (t, s) := by simpa [hid] using hr
      exact ⟨rfl, h, Symbols.typeId?_lt hid⟩
  | none =>
      obtain ⟨hdeclare, htypes⟩ := declareType_eq h (s.unionName members)
      have hgrows := (Symbols.follows_declareType (s.unionName members) s).1.types
      obtain ⟨hfold, hunion⟩ := foldlM_addSupertype_eq htypes fun m hm => Nat.lt_of_lt_of_le (hmembers m hm) hgrows
      simp only [hid] at hr
      subst hr
      simp only [hdeclare, hfold, Option.bind_eq_bind, Option.bind_some]
      exact ⟨trivial, hunion⟩

theorem declareUnion_eq (h : s.Linked) {members : List Nat} (hmembers : ∀ m ∈ members, m < s.types.length) :
    declareUnion members s = some (s.declareUnion members) ∧
      IsType (s.declareUnion members).1 (s.declareUnion members).2 := by
  have hall : members.all s.hasType = true := by
    simpa [Symbols.hasType] using hmembers
  have hbelow : ∀ m ∈ s.unionMembers members, m < s.types.length :=
    fun m hm => List.mem_range.mp (List.mem_filter.mp hm).1
  rw [declareUnion, if_pos hall, Symbols.declareUnion]
  rcases hts : s.unionMembers members with _ | ⟨t, _ | ⟨u, ts⟩⟩
  · exact declareAbove_eq h (by simp) rfl
  · exact ⟨rfl, h, hbelow t (by simp [hts])⟩
  · exact declareAbove_eq h (hts ▸ hbelow) rfl

theorem resolveType_finds (h : s.Linked) (ref : Definition.TypeRef) :
    Finds (resolveType ref s) (s.resolve ref) ∧ ∀ t s', s.resolve ref = .ok (t, s') → IsType t s' := by
  cases ref with
  | exactly name =>
      refine ⟨.ofExcept _, fun t s' ht => ?_⟩
      obtain ⟨u, hu, heq⟩ := Except.map_eq_ok.mp ht
      obtain ⟨rfl, rfl⟩ := Prod.mk.inj heq
      exact ⟨h, Symbols.knownType_lt hu⟩
  | eitherOf names =>
      rw [resolveType, Symbols.resolve]
      cases hm : names.mapM s.knownType with
      | error e => exact ⟨rfl, fun t s' ht => by cases ht⟩
      | ok members =>
          cases members with
          | nil =>
              refine ⟨rfl, fun t s' ht => ?_⟩
              obtain ⟨rfl, rfl⟩ := Prod.mk.inj (Except.ok.inj ht)
              exact ⟨h, h.object⟩
          | cons m members =>
              have hknown : ∀ u ∈ m :: members, u < s.types.length := by
                intro u hu
                obtain ⟨name, -, hname⟩ := (Except.mapM_eq_ok hm).2 u hu
                exact Symbols.knownType_lt hname
              obtain ⟨hunion, htypes⟩ := declareUnion_eq h hknown
              refine ⟨Finds.lift hunion, fun t s' ht => ?_⟩
              rw [Except.ok.inj ht] at htypes
              exact htypes

theorem declare_eq {α : Type} [DecidableEq α] (c : Catalog α) (name : String) (d : α) :
    declare c name d = some (c.declare? name d) := by
  rw [declare, Catalog.declare?]
  cases hid : c.id? name with
  | none => rfl
  | some id =>
      obtain ⟨e, he⟩ := Catalog.exists_definition? hid
      simp [he]

theorem declareConstant_finds {t : Nat} (h : IsType t s) (name : String) :
    Finds (declareConstant name t s) (s.declareConstant name t) ∧
      ∀ c s', s.declareConstant name t = .ok (c, s') → s'.Linked := by
  rw [declareConstant, Symbols.declareConstant]
  cases hdeclare : s.constants.declare? name t with
  | none => exact ⟨.found ((declare_eq ..).trans (congrArg some hdeclare)) (.throw _), fun c s' hc => by cases hc⟩
  | some r =>
      obtain ⟨id, constants⟩ := r
      have hadd := h.linked.addConstant h.lt hdeclare
      refine ⟨.found ((declare_eq ..).trans (congrArg some hdeclare)) ?_, fun c s' hc => ?_⟩
      · dsimp only
        split
        · exact .pure (id, s)
        · exact .lift (by rw [refresh_eq hadd]; rfl)
      · obtain ⟨-, rfl⟩ := Prod.mk.inj (Except.ok.inj hc)
        split
        · exact h.linked
        · exact hadd.refresh

theorem declarePredicate_finds (h : s.Linked) (name : String) (signature : List Nat) :
    Finds (declarePredicate name signature s) (s.declarePredicate name signature) ∧
      ∀ p s', s.declarePredicate name signature = .ok (p, s') → s'.Linked := by
  rw [declarePredicate, Symbols.declarePredicate]
  cases hdeclare : s.predicates.declare? name signature with
  | none => exact ⟨.found ((declare_eq ..).trans (congrArg some hdeclare)) (.throw _), fun p s' hp => by cases hp⟩
  | some r =>
      refine ⟨.found ((declare_eq ..).trans (congrArg some hdeclare)) (.pure _), fun p s' hp => ?_⟩
      obtain ⟨-, rfl⟩ := Prod.mk.inj (Except.ok.inj hp)
      exact ⟨h.object, h.supertypes, h.constants⟩

theorem declareTask_finds (h : s.Linked) (name : String) (signature : TaskSignature) :
    Finds (declareTask name signature s) (s.declareTask name signature) ∧
      ∀ t s', s.declareTask name signature = .ok (t, s') → s'.Linked := by
  rw [declareTask, Symbols.declareTask]
  cases hdeclare : s.tasks.declare? name signature with
  | none => exact ⟨.found ((declare_eq ..).trans (congrArg some hdeclare)) (.throw _), fun t s' ht => by cases ht⟩
  | some r =>
      refine ⟨.found ((declare_eq ..).trans (congrArg some hdeclare)) (.pure _), fun t s' ht => ?_⟩
      obtain ⟨-, rfl⟩ := Prod.mk.inj (Except.ok.inj ht)
      exact ⟨h.object, h.supertypes, h.constants⟩

/-- Whether a constant is of a type, which walks up from the constant's type. -/
def isOfType (s : Symbols) (constant type : Nat) : Option Bool := do
  climbsTo s.above type [← s.constants.definition? constant] []

def isPrimitive (s : Symbols) (task : Nat) : Option Bool := (s.tasks.definition? task).map (·.primitive)

theorem isOfType_eq (h : s.Linked) {c : Nat} (hc : c < s.constants.size) (t : Nat) :
    isOfType s c t = some (s.isOfType c t) := by
  have hentry : s.constants.entries[c]? = some s.constants.entries[c] := List.getElem?_eq_getElem hc
  have htype : s.constants.definition? c = some s.constants.entries[c].2 := by
    rw [Catalog.definition?, hentry, Option.map_some]
  have hlt := h.constants _ (List.mem_of_getElem? hentry)
  rw [isOfType, htype, Option.bind_eq_bind, Option.bind_some,
    climbsTo_eq h t fun u hu => List.mem_singleton.mp hu ▸ hlt, Symbols.climbsTo_eq_isSubtype, Symbols.isOfType,
    htype, Option.any_some]

theorem isPrimitive_eq {t : Nat} {signature : TaskSignature} (h : s.tasks.definition? t = some signature) :
    isPrimitive s t = some (s.isPrimitive t) := by
  simp [isPrimitive, Symbols.isPrimitive, h]

end Lookup

end HtnPlanner
