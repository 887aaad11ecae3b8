import HtnPlanner.Proofs.Symbols.Hierarchy
import Mathlib.Data.List.Sort
import Std.Data.TreeSet.Lemmas

/-!
Walks up the types where each type that comes up is looked up, in the list of the supertypes and in that of the
domains, and there is no result if it is not there. As long as the tables mention types only that are there, the walks
find everything and come to what is said of the symbols.
-/

namespace HtnPlanner

namespace Symbols

/-- The types that the tables mention are there, `object` among them. -/
structure Linked (s : Symbols) : Prop where
  object : objectType < s.types.length
  supertypes : ∀ t ∈ s.types, ∀ u ∈ t.supertypes, u < s.types.length
  constants : ∀ e ∈ s.constants.entries, e.2 < s.types.length

instance (s : Symbols) : Decidable s.Linked :=
  decidable_of_iff
    (objectType < s.types.length ∧ (∀ t ∈ s.types, ∀ u ∈ t.supertypes, u < s.types.length) ∧
      ∀ e ∈ s.constants.entries, e.2 < s.types.length)
    ⟨fun ⟨h, h', h''⟩ => ⟨h, h', h''⟩, fun h => ⟨h.object, h.supertypes, h.constants⟩⟩

/-- The supertypes of each type. -/
def above (s : Symbols) : List (List Nat) := s.types.map (·.supertypes)

theorem getElem?_above {s : Symbols} {t : Nat} (ht : t < s.types.length) : s.above[t]? = some (s.supertypes t) := by
  rw [above, List.getElem?_map, Symbols.supertypes, List.getElem?_eq_getElem ht]
  rfl

theorem above_close (s : Symbols) : s.close.above = s.above := by
  refine List.ext_getElem? fun t => ?_
  simp only [above, close, List.getElem?_map, List.getElem?_mapIdx]
  cases s.types[t]? <;> rfl

theorem Linked.lt_of_mem_supertypes {s : Symbols} (h : s.Linked) {t u : Nat} (hu : u ∈ s.supertypes t) :
    u < s.types.length := by
  rw [Symbols.supertypes] at hu
  cases hentry : s.types[t]? with
  | none => simp [hentry] at hu
  | some entry =>
      rw [hentry, Option.elim_some] at hu
      exact h.supertypes entry (List.mem_of_getElem? hentry) u hu

/-- The stack after a type was taken off it and its supertypes were put on it. -/
theorem Linked.lt_of_mem_visit {s : Symbols} (h : s.Linked) {t : Nat} {stack : List Nat}
    (hstack : ∀ u ∈ t :: stack, u < s.types.length) :
    ∀ u ∈ (s.supertypes t).reverse ++ stack, u < s.types.length := by
  intro u hu
  rcases List.mem_append.mp hu with hu | hu
  · exact h.lt_of_mem_supertypes (List.mem_reverse.mp hu)
  · exact hstack u (List.mem_cons_of_mem t hu)

theorem subset_climb (s : Symbols) (stack visited : List Nat) : visited ⊆ s.climb stack visited := by
  fun_induction climb s stack visited with
  | case1 visited => exact List.Subset.refl _
  | case2 t stack visited ht ih => exact ih
  | case3 t stack visited ht ih => exact List.Subset.trans (List.subset_cons_self _ _) ih

end Symbols

namespace Lookup

/-- The constants of each type, by the number of the type. -/
abbrev Domains := List (Std.TreeSet Nat)

variable {s : Symbols} {domains filled : Domains} {above : List (List Nat)} {stack visited : List Nat} {t u c x : Nat}

/-! ### Walks that look up -/

/-- `Symbols.climbsTo`, which looks up the supertypes of each type that it visits. -/
def climbsTo (above : List (List Nat)) (sup : Nat) : List Nat → List Nat → Option Bool
  | [], _ => some false
  | t :: stack, visited =>
    if t = sup then some true
    else if t ∈ visited then climbsTo above sup stack visited
    else
      match _ : above[t]? with
      | none => none
      | some ts => climbsTo above sup (ts.reverse ++ stack) (t :: visited)
termination_by stack visited => (((List.range above.length).filter (· ∉ visited)).length, stack.length)
decreasing_by
  · exact .right _ (by simp)
  · exact .left _ _ (Symbols.length_unseen_lt (List.getElem?_eq_some_iff.mp ‹above[_]? = some _›).1 ‹_›)

/-- Puts a constant in the domain of each type that `Symbols.climb` comes by. -/
def fill (above : List (List Nat)) (c : Nat) : List Nat → List Nat → Domains → Option Domains
  | [], _, domains => some domains
  | t :: stack, visited, domains =>
    if t ∈ visited then fill above c stack visited domains
    else
      match domains[t]?, _ : above[t]? with
      | some domain, some ts =>
        fill above c (ts.reverse ++ stack) (t :: visited) (domains.set t (domain.insert c))
      | _, _ => none
termination_by stack visited => (((List.range above.length).filter (· ∉ visited)).length, stack.length)
decreasing_by
  · exact .right _ (by simp)
  · exact .left _ _ (Symbols.length_unseen_lt (List.getElem?_eq_some_iff.mp ‹above[_]? = some _›).1 ‹_›)

/-- Fills in the domains with the constants, each by a walk up from its type. -/
def fillAll (above : List (List Nat)) (types : List Nat) (domains : Domains) : Option Domains :=
  types.zipIdx.foldlM (fun domains constant => fill above constant.2 [constant.1] [] domains) domains

theorem climbsTo_eq (h : s.Linked) (sup : Nat) (hstack : ∀ u ∈ stack, u < s.types.length) :
    climbsTo s.above sup stack visited = some (s.climbsTo sup stack visited) := by
  fun_induction Symbols.climbsTo s sup stack visited with
  | case1 visited => rw [climbsTo]
  | case2 stack visited => rw [climbsTo, if_pos rfl]
  | case3 t stack visited hne ht ih =>
      rw [climbsTo, if_neg hne, if_pos ht]
      exact ih fun u hu => hstack u (List.mem_cons_of_mem t hu)
  | case4 t stack visited hne ht ih =>
      rw [climbsTo, if_neg hne, if_neg ht]
      have habove := Symbols.getElem?_above (hstack t List.mem_cons_self)
      split
      · next hnone => simp [habove] at hnone
      · next ts hts =>
          obtain rfl : s.supertypes t = ts := Option.some.inj (habove.symm.trans hts)
          exact ih (h.lt_of_mem_visit hstack)

/-! ### What is filled in -/

def Domains.Holds (domains : Domains) (t c : Nat) : Prop := ∃ domain, domains[t]? = some domain ∧ c ∈ domain

theorem Domains.not_holds_empty {α : Type} (l : List α) : ¬ Domains.Holds (l.map fun _ => ∅) u x := by
  rintro ⟨domain, hdomain, hx⟩
  obtain ⟨-, -, rfl⟩ := List.mem_map.mp (List.mem_of_getElem? hdomain)
  exact Std.TreeSet.not_mem_emptyc hx

theorem Domains.holds_set {domain : Std.TreeSet Nat} (hdomain : domains[t]? = some domain) :
    Domains.Holds (domains.set t (domain.insert c)) u x ↔ domains.Holds u x ∨ u = t ∧ x = c := by
  have ht := (List.getElem?_eq_some_iff.mp hdomain).1
  rw [Holds, Holds, List.getElem?_set]
  by_cases hu : t = u
  · subst hu
    simp only [if_true, if_pos ht, hdomain, Option.some.injEq, exists_eq_left', Std.TreeSet.mem_insert,
      Nat.compare_eq_eq, true_and]
    rw [or_comm, eq_comm]
  · simp [hu, Ne.symm hu]

/-- An ascending list with what is filled in is the domain. -/
theorem Domains.toList_eq {domain : Std.TreeSet Nat} {l : List Nat} (hdomain : domains[u]? = some domain)
    (hl : l.Pairwise (· < ·)) (hspec : ∀ x, domains.Holds u x ↔ x ∈ l) : domain.toList = l := by
  have hsorted : domain.toList.Pairwise (· < ·) := Std.TreeSet.ordered_toList.imp Nat.compare_eq_lt.mp
  refine hsorted.eq_of_mem_iff hl fun x => ?_
  rw [Std.TreeSet.mem_toList, ← hspec, Holds, hdomain]
  simp

theorem fill_spec (h : s.Linked) (c : Nat) (visited : List Nat) (hstack : ∀ u ∈ stack, u < s.types.length)
    (hlength : domains.length = s.types.length) :
    ∃ filled, fill s.above c stack visited domains = some filled ∧ filled.length = s.types.length ∧
      ∀ u x, filled.Holds u x ↔ domains.Holds u x ∨ x = c ∧ u ∈ s.climb stack visited ∧ u ∉ visited := by
  fun_induction Symbols.climb s stack visited generalizing domains with
  | case1 visited => exact ⟨domains, by rw [fill], hlength, fun u x => by simp⟩
  | case2 t stack visited ht ih =>
      obtain ⟨filled, hfill, hspec⟩ := ih (fun u hu => hstack u (List.mem_cons_of_mem t hu)) hlength
      exact ⟨filled, by rw [fill, if_pos ht, hfill], hspec⟩
  | case3 t stack visited ht ih =>
      have hlt := hstack t List.mem_cons_self
      have habove := Symbols.getElem?_above hlt
      have hdomain := List.getElem?_eq_getElem (hlength.symm ▸ hlt : t < domains.length)
      have hset : (domains.set t (domains[t].insert c)).length = s.types.length := by rw [List.length_set, hlength]
      obtain ⟨filled, hfill, hfilled, hspec⟩ := ih (h.lt_of_mem_visit hstack) hset
      refine ⟨filled, ?_, hfilled, fun u x => ?_⟩
      · rw [fill, if_neg ht]
        split
        · next domain ts hdomain' hts =>
            obtain rfl : s.supertypes t = ts := Option.some.inj (habove.symm.trans hts)
            obtain rfl : domains[t] = domain := Option.some.inj (hdomain.symm.trans hdomain')
            exact hfill
        · next hnone => exact absurd habove (hnone _ _ hdomain)
      · have hvisited : t ∈ s.climb ((s.supertypes t).reverse ++ stack) (t :: visited) :=
          s.subset_climb _ _ List.mem_cons_self
        rw [hspec, Domains.holds_set hdomain, List.mem_cons]
        by_cases hu : u = t
        · subst hu
          simp [hvisited, ht]
        · simp [hu]

/-- The first constants are those that were filled in before. -/
theorem foldlM_fill_spec (h : s.Linked) (types : List Nat) (k : Nat) (htypes : ∀ u ∈ types, u < s.types.length)
    (hlength : domains.length = s.types.length) :
    ∃ filled,
      (types.zipIdx k).foldlM (fun domains constant => fill s.above constant.2 [constant.1] [] domains) domains =
        some filled ∧ filled.length = s.types.length ∧
      ∀ u x, filled.Holds u x ↔
        domains.Holds u x ∨ ∃ i t, types[i]? = some t ∧ x = k + i ∧ u ∈ s.climb [t] [] := by
  induction types generalizing k domains with
  | nil => exact ⟨domains, rfl, hlength, fun u x => by simp⟩
  | cons t types ih =>
      have ht : ∀ u ∈ [t], u < s.types.length :=
        List.forall_mem_singleton.mpr (htypes t List.mem_cons_self)
      obtain ⟨first, hfirst, hfirstLength, hfirstSpec⟩ := fill_spec h k [] ht hlength
      obtain ⟨filled, hfill, hfilled, hspec⟩ :=
        ih (k + 1) (fun u hu => htypes u (List.mem_cons_of_mem t hu)) hfirstLength
      refine ⟨filled, ?_, hfilled, fun u x => ?_⟩
      · rw [List.zipIdx_cons, List.foldlM_cons]
        dsimp only
        rw [hfirst]
        exact hfill
      · rw [hspec, hfirstSpec, or_assoc]
        refine or_congr_right ⟨?_, ?_⟩
        · rintro (⟨rfl, hu, -⟩ | ⟨i, t', hi, rfl, hu⟩)
          · exact ⟨0, t, rfl, rfl, hu⟩
          · exact ⟨i + 1, t', hi, by omega, hu⟩
        · rintro ⟨i, t', hi, rfl, hu⟩
          cases i with
          | zero =>
              obtain rfl := Option.some.inj hi
              exact Or.inl ⟨rfl, hu, List.not_mem_nil⟩
          | succ i => exact Or.inr ⟨i, t', hi, by omega, hu⟩

/-- To walk up from the types of the constants fills in what `Symbols.close` does. -/
theorem fillAll_eq {α : Type} (h : s.Linked) {l : List α} (hlength : l.length = s.types.length) :
    ∃ filled, fillAll s.above (s.constants.entries.map (·.2)) (l.map fun _ => ∅) = some filled ∧
      filled.map (·.toList) = s.close.types.map (·.domain) := by
  have hempty : (l.map fun _ => (∅ : Std.TreeSet Nat)).length = s.types.length := (List.length_map _).trans hlength
  obtain ⟨filled, hfill, hfilled, hspec⟩ :=
    foldlM_fill_spec h (s.constants.entries.map (·.2)) 0 (List.forall_mem_map.mpr h.constants) hempty
  refine ⟨filled, hfill, List.ext_getElem ?_ fun u hu hu' => ?_⟩
  · rw [List.length_map, List.length_map, hfilled]
    simp [Symbols.close]
  · have hlt : u < s.types.length := by simpa [hfilled] using hu
    rw [List.length_map] at hu hu'
    have hdomain : s.close.types[u].domain = s.close.domain u := by
      rw [Symbols.domain, List.getElem?_eq_getElem hu']
      rfl
    have hascending := (Symbols.settled_close (Nat.zero_lt_of_lt hlt)).ascending u
    rw [List.getElem_map, List.getElem_map, hdomain]
    refine Domains.toList_eq (List.getElem?_eq_getElem hu) hascending fun x => ?_
    rw [hspec, or_iff_right (Domains.not_holds_empty l), Symbols.mem_domain_close_iff_climb hlt]
    simp only [Nat.zero_add, List.getElem?_map, Catalog.definition?]
    constructor
    · rintro ⟨i, t, hi, rfl, ht⟩
      exact ⟨t, hi, ht⟩
    · rintro ⟨t, hx, ht⟩
      exact ⟨x, t, hx, rfl, ht⟩

end Lookup

end HtnPlanner
