import HtnPlanner.Proofs.Symbols.History

/-!
A union is known by a name that is joined from those of its members. Where no other type comes by that name, the
union has the subtypes of its members and no others. Names without the joining sign are never mistaken, but a type
may be declared by the very name of a union, and then the union is that type.
-/

namespace HtnPlanner.Symbols

open Relation

variable {s : Symbols} {ts : List Nat} {a b t : Nat}

theorem toList_unionName (s : Symbols) (ts : List Nat) : (s.unionName ts).toList =
    "either~".toList ++ ['~'].intercalate ((ts.map s.typeName).map String.toList) := by
  rw [unionName, String.toList_append, String.toList_intercalate]
  rfl

theorem unionName_ne_object (s : Symbols) (ts : List Nat) : s.unionName ts ≠ "object" := by
  intro h
  have hlist := congrArg String.toList h
  rw [toList_unionName] at hlist
  exact absurd (List.cons.inj hlist).1 (by decide)

/-- Names without the joining sign can be told from the name that they are joined to. -/
theorem map_typeName_eq_of_unionName_eq {us : List Nat} (h : s.unionName us = s.unionName ts)
    (hus : ∀ u ∈ us, '~' ∉ (s.typeName u).toList) (hts : ∀ t ∈ ts, '~' ∉ (s.typeName t).toList)
    (htwo : 2 ≤ ts.length) : us.map s.typeName = ts.map s.typeName := by
  have hne' : ts ≠ [] := List.ne_nil_of_length_pos (Nat.lt_of_lt_of_le Nat.zero_lt_two htwo)
  have hjoined := congrArg String.toList h
  rw [toList_unionName, toList_unionName, List.append_cancel_left_eq] at hjoined
  have hne : us ≠ [] := by
    rintro rfl
    obtain ⟨a, b, rest, rfl⟩ : ∃ a b rest, ts = a :: b :: rest := by
      match ts, htwo with
      | a :: b :: rest, _ => exact ⟨a, b, rest, rfl⟩
    simp [List.intercalate_cons_cons] at hjoined
  have hsplit := congrArg (List.splitOn '~') hjoined
  rw [List.splitOn_intercalate, List.splitOn_intercalate] at hsplit
  · exact (List.map_injective_iff.mpr fun _ _ => String.toList_inj.mp) hsplit
  · simpa using hts
  · simpa using hne'
  · simpa using hus
  · simpa using hne

/-- A union of at least two types has a type of its name, whether it was there or it is new. -/
theorem resolve_eitherOf_name {names : List String} {ids : List Nat} (hknown : names.mapM s.knownType = .ok ids)
    (htwo : 2 ≤ (s.unionMembers ids).length) : ∃ u s', s.resolve (.eitherOf names) = .ok (u, s') ∧
      (∃ later, s'.typeNames = s.typeNames ++ later) ∧
      s'.typeNames[u]? = some (s.unionName (s.unionMembers ids)) := by
  have hne : ids ≠ [] := by
    obtain ⟨m, hm⟩ := List.exists_mem_of_length_pos (Nat.lt_of_lt_of_le Nat.zero_lt_two htwo)
    exact List.ne_nil_of_mem (lt_of_mem_unionMembers hm).2
  refine ⟨(s.declareUnion ids).1, (s.declareUnion ids).2, resolve_eitherOf hknown hne, ?_⟩
  rcases declareUnion_cases ids s with ⟨t, hdeclare, hsingle | ⟨-, hname⟩⟩ | ⟨-, -, hnew, hnames, -⟩
  · simp [hsingle] at htwo
  · rw [hdeclare]
    exact ⟨⟨[], (List.append_nil _).symm⟩, hname⟩
  · rw [hnew, hnames, ← length_typeNames, List.getElem?_concat_length]
    exact ⟨⟨_, rfl⟩, rfl⟩

namespace History

variable {h : History}

/-- No type but a union of `ts` has the name of that union, and nothing else was put below it. -/
structure Unmistakable (h : History) (ts : List Nat) : Prop where
  names : h.symbols.unionName ts ∉ h.names
  links : ∀ l ∈ h.links, h.symbols.typeName l.2 ≠ h.symbols.unionName ts
  unions : ∀ u ∈ h.unions, h.symbols.unionName u.2 = h.symbols.unionName ts → u.2 = ts

instance Unmistakable.decidable (h : History) (ts : List Nat) : Decidable (h.Unmistakable ts) :=
  decidable_of_iff
    (h.symbols.unionName ts ∉ h.names ∧ (∀ l ∈ h.links, h.symbols.typeName l.2 ≠ h.symbols.unionName ts) ∧
      ∀ u ∈ h.unions, h.symbols.unionName u.2 = h.symbols.unionName ts → u.2 = ts)
    ⟨fun ⟨hnames, hlinks, hunions⟩ => ⟨hnames, hlinks, hunions⟩, fun hun => ⟨hun.names, hun.links, hun.unions⟩⟩

/-- The names of declared types are without the joining sign. Types are linked to declared types only, and all
unions are of declared types. -/
structure Plain (h : History) (ts : List Nat) : Prop where
  names : ∀ name ∈ h.names, '~' ∉ name.toList
  links : ∀ l ∈ h.links, h.symbols.typeName l.2 ∈ h.names
  unions : ∀ u ∈ h.unions, ∀ m ∈ u.2, h.symbols.typeName m ∈ h.names
  members : ∀ m ∈ ts, h.symbols.typeName m ∈ h.names

theorem Sound.typeId?_typeName (hs : h.Sound) (ht : t < h.symbols.types.length) :
    h.symbols.typeId? (h.symbols.typeName t) = some t := by
  have hlt : t < h.symbols.typeNames.length := by simpa using ht
  have hname : h.symbols.typeNames[t]? = some (h.symbols.typeName t) := by
    rw [typeName_eq_getElem?, List.getElem?_eq_getElem hlt, Option.getD_some]
  cases hid : h.symbols.typeId? (h.symbols.typeName t) with
  | none => exact absurd (List.mem_of_getElem? hname) (not_mem_typeNames_of_typeId? hid)
  | some u =>
      have hsame := (getElem?_typeNames_of_typeId? hid).trans hname.symm
      rw [(List.getElem?_inj (typeId?_lt hid |>.trans_eq (length_typeNames _).symm) hs.distinct).mp hsame]

theorem Sound.unmistakable (hs : h.Sound) (htwo : 2 ≤ ts.length) (hts : ∀ m ∈ ts, m < h.symbols.types.length)
    (hplain : h.Plain ts) : h.Unmistakable ts := by
  have hjoined : ∀ name ∈ h.names, name ≠ h.symbols.unionName ts := by
    rintro name hname rfl
    refine hplain.names _ hname ?_
    rw [toList_unionName]
    exact List.mem_append_left _ (by decide)
  refine ⟨fun hmem => hjoined _ hmem rfl, fun l hl => hjoined _ (hplain.links l hl), fun u hu hname => ?_⟩
  have hmap := map_typeName_eq_of_unionName_eq hname (fun m hm => hplain.names _ (hplain.unions u hu m hm))
    (fun m hm => hplain.names _ (hplain.members m hm)) htwo
  have hids := congrArg (List.map h.symbols.typeId?) hmap
  rw [List.map_map, List.map_map] at hids
  have hback : ∀ us : List Nat, (∀ m ∈ us, m < h.symbols.types.length) →
      us.map (h.symbols.typeId? ∘ h.symbols.typeName) = us.map some := fun us hus =>
    List.map_congr_left fun m hm => hs.typeId?_typeName (hus m hm)
  rw [hback u.2 (hs.unions u hu).1, hback ts hts] at hids
  exact (List.map_injective_iff.mpr fun _ _ => Option.some.inj) hids

theorem Sound.below_of_declared (hs : h.Sound) (hab : h.Declared a b) : h.symbols.Below a b := by
  by_cases heq : a = b
  · exact heq ▸ .refl
  · exact .single ((hs.supertypes a b).mpr ⟨(hs.member_lt hab).1, heq, Or.inr hab⟩)

/-- Below a union are the types that were declared to be, and all that are below those. -/
theorem Sound.isSubtype_union_iff (hs : h.Sound) {u : Nat}
    (hname : h.symbols.typeNames[u]? = some (h.symbols.unionName ts)) (ht : t ≠ u) :
    h.symbols.isSubtype t u = true ↔ ∃ a, h.Declared a u ∧ h.symbols.isSubtype t a = true := by
  have hobject : u ≠ objectType := by
    rintro rfl
    exact unionName_ne_object _ _ (Option.some.inj (hname.symm.trans hs.object))
  simp only [isSubtype_iff]
  constructor
  · intro htu
    obtain heq | ⟨a, hta, hau⟩ := ReflTransGen.cases_tail htu
    · exact absurd heq.symm ht
    · exact ⟨a, ((hs.supertypes a u).mp hau).2.2.resolve_left hobject, hta⟩
  · rintro ⟨a, hau, hta⟩
    exact hta.trans (hs.below_of_declared hau)

theorem Sound.declared_iff_mem (hs : h.Sound) {u : Nat} (hname : h.symbols.typeNames[u]? = some (h.symbols.unionName ts))
    (hun : h.Unmistakable ts) : h.Declared a u ↔ a ∈ ts := by
  have hunion : ∀ us, (u, us) ∈ h.unions → us = ts := by
    intro us hus
    have hsame := (hs.unions _ hus).2.symm.trans hname
    exact hun.unions _ hus (Option.some.inj hsame)
  constructor
  · rintro (hlink | ⟨us, hus, ha⟩)
    · refine absurd ?_ (hun.links _ hlink)
      rw [typeName_eq_getElem?, hname, Option.getD_some]
    · exact hunion us hus ▸ ha
  · intro ha
    obtain ⟨us, hus⟩ := (hs.named u _ hname).resolve_left hun.names
    exact Or.inr ⟨us, hus, (hunion us hus).symm ▸ ha⟩

end History

/-- Whatever was declared before, to resolve a union of at least two types gives a type of its name, and below it are
the types that were declared to be and the types below those. If nothing else came by this name, these are the
members and what is below them, the constants of the members are in its domain, and unions that come to the same
type have the same members. So it is where names are without the joining sign. -/
theorem resolve_eitherOf_subtypes (changes : List Change) (hfits : History.Fits {} changes) (names : List String)
    (ids : List Nat) (hknown : names.mapM (History.run {} changes).symbols.knownType = .ok ids)
    (htwo : 2 ≤ ((History.run {} changes).symbols.unionMembers ids).length) :
    let ts := (History.run {} changes).symbols.unionMembers ids
    let h := (History.run {} changes).step (.resolve (.eitherOf names))
    ∃ u, (History.run {} changes).symbols.resolve (.eitherOf names) = .ok (u, h.symbols) ∧
      h.symbols.typeName u = h.symbols.unionName ts ∧
      (∀ t ≠ u, h.symbols.isSubtype t u = true ↔ ∃ a, h.Declared a u ∧ h.symbols.isSubtype t a = true) ∧
      (h.Unmistakable ts →
        (∀ t ≠ u, h.symbols.isSubtype t u = true ↔ ∃ m ∈ ts, h.symbols.isSubtype t m = true) ∧
        (∀ c, ∀ m ∈ ts, h.symbols.isOfType c m = true →
          h.symbols.isOfType c u = true ∧ c ∈ h.symbols.close.domain u) ∧
        ∀ names' ids' s', names'.mapM h.symbols.knownType = .ok ids' → 2 ≤ (h.symbols.unionMembers ids').length →
          h.symbols.resolve (.eitherOf names') = .ok (u, s') → h.Unmistakable (h.symbols.unionMembers ids') →
            ∀ m, m ∈ h.symbols.unionMembers ids' ↔ m ∈ ts) ∧
      (h.Plain ts → h.Unmistakable ts) := by
  have hg : (History.run {} changes).Sound := History.sound_start.run hfits
  generalize History.run {} changes = g at hknown htwo hg ⊢
  intro ts h
  have hs : h.Sound := hg.step (c := .resolve (.eitherOf names)) trivial
  obtain ⟨u, s', hresolve, ⟨later, hlater⟩, hname⟩ := resolve_eitherOf_name hknown htwo
  obtain rfl : s' = h.symbols := by simp only [h, History.step, Change.apply, hresolve, after]
  have hbefore : ∀ m ∈ ts, m < g.symbols.types.length := fun m hm => (lt_of_mem_unionMembers hm).1
  have hmembers : ∀ m ∈ ts, m < h.symbols.types.length := by
    intro m hm
    rw [length_types_of_append hlater]
    exact Nat.lt_add_right _ (hbefore m hm)
  rw [← unionName_eq hlater hbefore] at hname
  have hlt : u < h.symbols.typeNames.length := (List.getElem?_eq_some_iff.mp hname).1
  refine ⟨u, hresolve, by rw [typeName_eq_getElem?, hname, Option.getD_some],
    fun t ht => hs.isSubtype_union_iff hname ht, fun hun => ?_, hs.unmistakable htwo hmembers⟩
  have hdeclared : ∀ a, h.Declared a u ↔ a ∈ ts := fun a => hs.declared_iff_mem hname hun
  refine ⟨fun t ht => by simp only [hs.isSubtype_union_iff hname ht, hdeclared], fun c m hm hc => ?_,
    fun names' ids' s' hknown' htwo' hresolve' hun' m => ?_⟩
  · have hbelow := isSubtype_iff.mpr (hs.below_of_declared ((hdeclared m).mpr hm))
    have hof := isOfType_of_isSubtype hbelow hc
    exact ⟨hof, (mem_domain_close_iff (by simpa using hlt)).mpr hof⟩
  · obtain ⟨v, s'', hfound, ⟨later', hlater'⟩, hname'⟩ := resolve_eitherOf_name hknown' htwo'
    obtain ⟨rfl, rfl⟩ := Prod.mk.inj (Except.ok.inj (hfound.symm.trans hresolve'))
    rw [hlater', List.getElem?_append_left hlt] at hname'
    exact (hs.declared_iff_mem hname' hun').symm.trans (hdeclared m)

theorem resolve_eitherOf_subtypes_cyclic :
    let h := (History.run {} cyclicChanges).step (.resolve (.eitherOf ["truck", "crate"]))
    (History.run {} cyclicChanges).symbols.resolve (.eitherOf ["truck", "crate"]) = .ok (4, h.symbols) ∧
      h.Unmistakable [1, 3] ∧ h.symbols.isSubtype 2 1 = true ∧ h.symbols.isSubtype 2 4 = true ∧
      h.symbols.isOfType 1 3 = true ∧ 1 ∈ h.symbols.close.domain 4 := by
  intro h
  have hknown : ["truck", "crate"].mapM (History.run {} cyclicChanges).symbols.knownType = .ok [3, 1] := by
    decide +kernel
  have hmembers : (History.run {} cyclicChanges).symbols.unionMembers [3, 1] = [1, 3] := by decide +kernel
  have hbox : h.symbols.isSubtype 2 1 = true := by decide +kernel
  have htruck : h.symbols.isOfType 1 3 = true := by decide +kernel
  have hun : h.Unmistakable [1, 3] := by decide +kernel
  have hunion : (History.run {} cyclicChanges).symbols.resolve (.eitherOf ["truck", "crate"]) =
      .ok (4, h.symbols) := by decide +kernel
  obtain ⟨u, hresolve, -, -, hlaw, -⟩ := resolve_eitherOf_subtypes cyclicChanges (by decide +kernel)
    ["truck", "crate"] [3, 1] hknown (by rw [hmembers]; decide)
  obtain ⟨rfl, -⟩ := Prod.mk.inj (Except.ok.inj (hresolve.symm.trans hunion))
  rw [hmembers] at hlaw
  obtain ⟨hsubtypes, hconstants, -⟩ := hlaw hun
  exact ⟨hunion, hun, hbox, (hsubtypes 2 (by decide)).mpr ⟨1, by decide, hbox⟩, htruck,
    (hconstants 1 3 (by decide) htruck).2⟩

/-- A type was declared by the name of the union of two others. -/
def mistakenChanges : List Change :=
  [.declareType "a", .declareType "b", .declareType "either~a~b", .declareConstant "x" 1, .close]

/-- It is taken for the union, and then the union is not above its members. -/
theorem resolve_eitherOf_mistaken : History.Fits {} mistakenChanges ∧
    (History.run {} mistakenChanges).symbols.typeNames = ["object", "a", "b", "either~a~b"] ∧
    let h := (History.run {} mistakenChanges).step (.resolve (.eitherOf ["a", "b"]))
    (History.run {} mistakenChanges).symbols.resolve (.eitherOf ["a", "b"]) = .ok (3, h.symbols) ∧
      h.symbols.isSubtype 1 1 = true ∧ h.symbols.isSubtype 1 3 = false ∧
      h.symbols.isOfType 0 1 = true ∧ h.symbols.domain 3 = [] := by
  decide +kernel

end HtnPlanner.Symbols
