import HtnPlanner.Symbols.Basic
import Mathlib.Tactic.Common

/-!
Once the domains are filled in they follow every change of the types: the domain of a type has the
constants that are of the type, whatever unions of types are declared on the way.
-/

namespace HtnPlanner

/-- A name that has an id and a definition keeps them. -/
theorem Catalog.declare?_eq_some {α : Type} [DecidableEq α] {c c' : Catalog α} {name : String} {d : α}
    {id : Nat} (h : c.declare? name d = some (id, c')) :
    c'.id? name = some id ∧ c'.definition? id = some d ∧
      ∀ n i e, c.id? n = some i → c.definition? i = some e → c'.id? n = some i ∧ c'.definition? i = some e := by
  rw [declare?] at h
  cases hid : c.id? name with
  | some i =>
      simp only [hid, Option.ite_none_right_eq_some, Option.some.injEq, Prod.mk.injEq] at h
      obtain ⟨hd, rfl, rfl⟩ := h
      exact ⟨hid, hd, fun n i e hn he => ⟨hn, he⟩⟩
  | none =>
      simp only [hid, Option.some.injEq, Prod.mk.injEq] at h
      obtain ⟨rfl, rfl⟩ := h
      refine ⟨?_, by simp [definition?, size], fun n i e hn he => ⟨?_, ?_⟩⟩
      · have hnone : c.entries.findIdx? (·.1 == name) = none := hid
        simp [id?, List.findIdx?_append, hnone, size]
      · have hsome : c.entries.findIdx? (·.1 == n) = some i := hn
        simp [id?, List.findIdx?_append, hsome]
      · simp only [definition?, Option.map_eq_some_iff] at he ⊢
        obtain ⟨entry, hentry, rfl⟩ := he
        exact ⟨entry, by rw [List.getElem?_append_left (List.getElem?_eq_some_iff.mp hentry).1, hentry], rfl⟩

namespace Symbols

variable {s s' : Symbols} {t : Nat}

theorem lt_size_of_definition? {c : Nat} {P : Nat → Bool} (h : (s.constants.definition? c).any P = true) :
    c < s.constants.size := by
  cases hc : s.constants.definition? c with
  | none => simp [hc] at h
  | some u =>
      obtain ⟨e, he, -⟩ := Option.map_eq_some_iff.mp hc
      exact (List.getElem?_eq_some_iff.mp he).1

/-- The domains are filled in, and there is the type of all constants. -/
structure Settled (s : Symbols) : Prop where
  closed : s.closed = true
  nonempty : 0 < s.types.length
  domains : ∀ t < s.types.length, ∀ c, c ∈ s.domain t ↔ s.isOfType c t = true
  ascending : ∀ t, (s.domain t).Pairwise (· < ·)

/-- Only types were added. -/
structure Extends (s s' : Symbols) : Prop where
  types : s.types.length ≤ s'.types.length
  constants : s'.constants = s.constants
  predicates : s'.predicates = s.predicates
  tasks : s'.tasks = s.tasks

theorem Extends.refl (s : Symbols) : s.Extends s := ⟨Nat.le_refl _, rfl, rfl, rfl⟩

theorem Extends.trans {s'' : Symbols} (h : s.Extends s') (h' : s'.Extends s'') : s.Extends s'' :=
  ⟨Nat.le_trans h.types h'.types, h'.constants.trans h.constants, h'.predicates.trans h.predicates,
    h'.tasks.trans h.tasks⟩

theorem ancestors_close (s : Symbols) : s.close.ancestors = s.ancestors := by
  have hsupertypes : s.close.types.map (fun t => IndexSet.ofList t.supertypes) =
      s.types.map fun t => IndexSet.ofList t.supertypes := by
    apply List.ext_getElem (by simp [close])
    intro i hi hi'
    simp [close]
  rw [ancestors, hsupertypes, ancestors]

theorem settled_close (h : 0 < s.types.length) : s.close.Settled := by
  have hdomain : ∀ t < s.types.length, s.close.domain t = s.constantsBelow s.ancestors t := by
    intro t ht
    simp [domain, close, List.getElem?_eq_getElem ht]
  refine ⟨rfl, by simpa [close] using h, fun t ht c => ?_, fun t => ?_⟩
  · have ht' : t < s.types.length := by simpa [close] using ht
    have htype : s.close.isOfType c t =
        (s.constants.definition? c).any fun u => u == t || s.ancestors.holds u t := by
      simp only [isOfType, isSubtype, ancestors_close]
      rfl
    rw [hdomain t ht', htype, constantsBelow, List.mem_filter, List.mem_range, and_iff_right_iff_imp]
    intro hany
    exact lt_size_of_definition? hany
  · by_cases ht : t < s.types.length
    · rw [hdomain t ht]
      exact List.pairwise_lt_range.filter _
    · have hnone : s.close.domain t = [] := by simp [domain, close, ht]
      rw [hnone]
      exact List.Pairwise.nil

theorem extends_refresh (s : Symbols) : s.Extends s.refresh := by
  rw [refresh]
  split
  · exact ⟨by simp [close], rfl, rfl, rfl⟩
  · exact Extends.refl s

/-- Types were added, and domains that were filled in still are. -/
structure Follows (s s' : Symbols) : Prop extends s.Extends s' where
  settled : s.Settled → s'.Settled

theorem Follows.refl (s : Symbols) : s.Follows s := ⟨Extends.refl s, id⟩

theorem Follows.trans {s'' : Symbols} (h : s.Follows s') (h' : s'.Follows s'') : s.Follows s'' :=
  ⟨h.toExtends.trans h'.toExtends, fun hs => h'.settled (h.settled hs)⟩

/-- Types may change in any way before the domains are filled in again. -/
theorem follows_refresh {types : List TypeEntry} (h : s.types.length ≤ types.length) :
    s.Follows (refresh { s with types }) := by
  have hstep : s.Extends { s with types } := ⟨h, rfl, rfl, rfl⟩
  refine ⟨hstep.trans (extends_refresh _), fun hs => ?_⟩
  rw [refresh, if_pos hs.closed]
  exact settled_close (Nat.lt_of_lt_of_le hs.nonempty h)

theorem typeId?_lt {name : String} (h : s.typeId? name = some t) : t < s.types.length := by
  obtain ⟨ht, -⟩ := List.findIdx?_eq_some_iff_getElem.mp h
  exact ht

theorem knownType_eq_ok {name : String} : s.knownType name = .ok t ↔ s.typeId? name = some t := by
  rw [knownType]
  cases s.typeId? name <;> simp

theorem knownType_lt {name : String} (h : s.knownType name = .ok t) : t < s.types.length :=
  typeId?_lt (knownType_eq_ok.mp h)

theorem follows_declareType (name : String) (s : Symbols) :
    s.Follows (s.declareType name).2 ∧ (s.declareType name).1 < (s.declareType name).2.types.length := by
  rw [declareType]
  cases hid : s.typeId? name with
  | some t => exact ⟨Follows.refl s, typeId?_lt hid⟩
  | none =>
      refine ⟨follows_refresh (by simp), ?_⟩
      have hgrows := (extends_refresh { s with types := s.types ++ [⟨name, [objectType], []⟩] }).types
      simp only [List.length_append, List.length_singleton] at hgrows
      exact hgrows

theorem follows_addSupertype (sub sup : Nat) (s : Symbols) : s.Follows (s.addSupertype sub sup) := by
  rw [addSupertype]
  split
  · exact Follows.refl s
  · exact follows_refresh (by simp)

theorem follows_foldl_addSupertype (t : Nat) (members : List Nat) (s : Symbols) :
    s.Follows (members.foldl (fun s member => s.addSupertype member t) s) := by
  induction members generalizing s with
  | nil => exact Follows.refl s
  | cons m members ih => exact (follows_addSupertype m t s).trans (ih _)

theorem follows_declareUnion (members : List Nat) (s : Symbols) :
    s.Follows (s.declareUnion members).2 ∧
      (s.declareUnion members).1 < (s.declareUnion members).2.types.length := by
  rw [declareUnion]
  split
  · next t ht =>
      have hmem : t ∈ s.unionMembers members := by simp [ht]
      exact ⟨Follows.refl s, List.mem_range.mp (List.mem_filter.mp hmem).1⟩
  · generalize s.unionMembers members = ts
    cases hid : s.typeId? (s.unionName ts) with
    | some t => exact ⟨Follows.refl s, typeId?_lt hid⟩
    | none =>
        obtain ⟨hfollows, hlt⟩ := follows_declareType (s.unionName ts) s
        have hrest := follows_foldl_addSupertype (s.declareType (s.unionName ts)).1 ts
          (s.declareType (s.unionName ts)).2
        exact ⟨hfollows.trans hrest, Nat.lt_of_lt_of_le hlt hrest.types⟩

theorem follows_resolve {ref : Definition.TypeRef} (h : s.resolve ref = .ok (t, s')) :
    s.Follows s' ∧ (0 < s.types.length → t < s'.types.length) := by
  cases ref with
  | exactly name =>
      simp only [resolve, knownType] at h
      cases hid : s.typeId? name with
      | none => simp [hid, Except.map] at h
      | some t =>
          simp only [hid, Except.map, Except.ok.injEq, Prod.mk.injEq] at h
          obtain ⟨rfl, rfl⟩ := h
          exact ⟨Follows.refl s, fun _ => typeId?_lt hid⟩
  | eitherOf names =>
      simp only [resolve] at h
      cases hm : names.mapM s.knownType with
      | error e => simp [hm, bind, Except.bind] at h
      | ok members =>
          cases members with
          | nil =>
              simp only [hm, bind, Except.bind, Except.ok.injEq, Prod.mk.injEq] at h
              obtain ⟨rfl, rfl⟩ := h
              exact ⟨Follows.refl s, id⟩
          | cons m members =>
              simp only [hm, bind, Except.bind, Except.ok.injEq] at h
              obtain ⟨hfollows, hlt⟩ := follows_declareUnion (m :: members) s
              rw [h] at hfollows hlt
              exact ⟨hfollows, fun _ => hlt⟩

theorem types_declareConstant {name : String} {id : Nat} (h : s.declareConstant name t = .ok (id, s')) :
    s.types.length ≤ s'.types.length := by
  rw [declareConstant] at h
  split at h
  · next constants _ =>
    simp only [Except.ok.injEq, Prod.mk.injEq] at h
    obtain ⟨-, rfl⟩ := h
    split
    · exact Nat.le_refl _
    · exact (extends_refresh { s with constants }).types
  · exact absurd h (by simp)

theorem Settled.declareConstant {name : String} {id : Nat} (hs : s.Settled)
    (h : s.declareConstant name t = .ok (id, s')) : s'.Settled := by
  rw [Symbols.declareConstant] at h
  split at h
  · next constants _ =>
    simp only [Except.ok.injEq, Prod.mk.injEq] at h
    obtain ⟨-, rfl⟩ := h
    split
    · exact hs
    · rw [refresh, if_pos hs.closed]
      exact settled_close hs.nonempty
  · exact absurd h (by simp)

theorem Settled.declarePredicate {name : String} {signature : List Nat} {id : Nat} (hs : s.Settled)
    (h : s.declarePredicate name signature = .ok (id, s')) : s'.Settled := by
  rw [Symbols.declarePredicate] at h
  split at h
  · simp only [Except.ok.injEq, Prod.mk.injEq] at h
    obtain ⟨-, rfl⟩ := h
    exact ⟨hs.closed, hs.nonempty, hs.domains, hs.ascending⟩
  · exact absurd h (by simp)

theorem Settled.declareTask {name : String} {signature : TaskSignature} {id : Nat} (hs : s.Settled)
    (h : s.declareTask name signature = .ok (id, s')) : s'.Settled := by
  rw [Symbols.declareTask] at h
  split at h
  · simp only [Except.ok.injEq, Prod.mk.injEq] at h
    obtain ⟨-, rfl⟩ := h
    exact ⟨hs.closed, hs.nonempty, hs.domains, hs.ascending⟩
  · exact absurd h (by simp)

/-- A constant of some type is one of the constants. -/
theorem lt_size_of_isOfType {c : Nat} (h : s.isOfType c t = true) : c < s.constants.size :=
  lt_size_of_definition? h

end Symbols

end HtnPlanner
