import HtnPlanner.FactTable
import HtnPlanner.Positions
import Mathlib.Data.List.Induction
import Mathlib.Tactic.Common

/-!
The index lists the tuples by their constants, each at all of its positions and nothing else, so that a search through
one list of occurrences misses no tuple that fits the pattern.
-/

namespace HtnPlanner.FactTable

/-- The index lists a tuple wherever it has a constant. -/
def Indexed (t : FactTable) : Prop :=
  ∀ (place : Nat) (args : List Nat) (position c : Nat), t.facts[place]? = some args →
    position < t.arity → args[position]? = some c → place ∈ t.occurrences position c

/-- For each position and constant the index lists the places of the tuples that have the constant there, ascending. -/
def Listed (t : FactTable) : Prop :=
  ∀ position < t.arity, ∀ c, t.occurrences position c = positions (·[position]? == some c) t.facts

theorem Listed.indexed {t : FactTable} (h : t.Listed) : t.Indexed := by
  intro place args position c hplace hposition hc
  rw [h position hposition c, mem_positions]
  exact ⟨args, hplace, beq_iff_eq.mpr hc⟩

theorem Listed.lt_size {t : FactTable} (h : t.Listed) {position c place : Nat}
    (hplace : place ∈ t.occurrences position c) : place < t.size := by
  by_cases hposition : position < t.arity
  · rw [h position hposition c, mem_positions] at hplace
    obtain ⟨args, hargs, -⟩ := hplace
    exact (List.getElem?_eq_some_iff.mp hargs).1
  · have hnone : t.index[position]? = none := List.getElem?_eq_none_iff.mpr (Nat.not_lt.mp hposition)
    rw [occurrences, hnone] at hplace
    exact absurd hplace List.not_mem_nil

theorem listed_empty (arity : Nat) : (empty arity).Listed := by
  intro position hposition c
  have hlt : position < arity := by simpa [FactTable.arity, empty] using hposition
  simp [occurrences, empty, positions, hlt]

theorem arity_insert (t : FactTable) (args : List Nat) : (t.insert args).arity = t.arity := by
  rw [insert]
  split
  · rfl
  · simp [arity]

theorem facts_insert (t : FactTable) (args : List Nat) :
    (t.insert args).facts = if t.contains args then t.facts else t.facts ++ [args] := by
  rw [insert]
  split <;> rfl

/-- What is listed stays listed, and the new place is listed at the constants of the tuple. -/
theorem occurrences_insert {t : FactTable} {args : List Nat} (h : t.contains args = false) {position : Nat}
    (hposition : position < t.arity) (c : Nat) : (t.insert args).occurrences position c =
      t.occurrences position c ++ if args[position]? = some c then [t.size] else [] := by
  have hindex : t.index[position]? = some t.index[position] := List.getElem?_eq_getElem hposition
  have hold : t.occurrences position c = t.index[position].getD c [] := by
    simp [occurrences, hindex, Std.TreeMap.getD_eq_getD_getElem?]
  have hnew : (t.insert args).occurrences position c =
      (note t.size args[position]? t.index[position]).getD c [] := by
    simp [insert, h, occurrences, hindex, Std.TreeMap.getD_eq_getD_getElem?]
  rw [hold, hnew]
  cases args[position]? with
  | none => simp [note]
  | some d =>
      rw [note, Std.TreeMap.getD_insert]
      by_cases hd : d = c
      · simp [hd]
      · simp [hd]

theorem Listed.insert {t : FactTable} (h : t.Listed) (args : List Nat) : (t.insert args).Listed := by
  by_cases hc : t.contains args = true
  · rwa [FactTable.insert, if_pos hc]
  · have hc : t.contains args = false := Bool.eq_false_iff.mpr hc
    intro position hposition c
    rw [arity_insert] at hposition
    rw [occurrences_insert hc hposition, h position hposition, facts_insert, hc, if_neg Bool.false_ne_true,
      positions_concat, size]
    simp only [beq_iff_eq]

/-! ### Insertion of one tuple after the other -/

theorem ofList_concat (arity : Nat) (tuples : List (List Nat)) (args : List Nat) :
    ofList arity (tuples ++ [args]) = (ofList arity tuples).insert args := by
  rw [ofList, List.foldl_append]
  rfl

theorem arity_ofList (arity : Nat) (tuples : List (List Nat)) : (ofList arity tuples).arity = arity := by
  induction tuples using List.reverseRecOn with
  | nil => simp [ofList, FactTable.arity, empty]
  | append_singleton tuples args ih => rw [ofList_concat, arity_insert, ih]

theorem listed_ofList (arity : Nat) (tuples : List (List Nat)) : (ofList arity tuples).Listed := by
  induction tuples using List.reverseRecOn with
  | nil => exact listed_empty arity
  | append_singleton tuples args ih => exact ofList_concat arity tuples args ▸ ih.insert args

/-- Of equal tuples the first one is kept. -/
theorem facts_ofList (arity : Nat) (tuples : List (List Nat)) : (ofList arity tuples).facts = tuples.eraseDups := by
  induction tuples using List.reverseRecOn with
  | nil => rfl
  | append_singleton tuples args ih =>
      rw [ofList_concat, facts_insert, contains, ih, List.eraseDups_append]
      by_cases h : args ∈ tuples <;> simp [List.removeAll, h, List.eraseDups_cons]

theorem ofList_spec (arity : Nat) (tuples : List (List Nat)) :
    (ofList arity tuples).Indexed ∧ (ofList arity tuples).arity = arity ∧
      ∀ args, args ∈ (ofList arity tuples).facts ↔ args ∈ tuples :=
  ⟨(listed_ofList arity tuples).indexed, arity_ofList arity tuples, fun args => by
    rw [facts_ofList, List.mem_eraseDups]⟩

/-! ### Matching -/

theorem mem_of_shortest {ls : List (List Nat)} {l : List Nat} (h : shortest ls = some l) : l ∈ ls := by
  have hfoldl : ∀ (ls : List (List Nat)) (best : List Nat),
      ls.foldl (fun best l => if l.length < best.length then l else best) best ∈ best :: ls := by
    intro ls
    induction ls with
    | nil => exact fun best => List.mem_cons_self
    | cons a ls ih =>
        intro best
        rw [List.foldl_cons]
        rcases List.mem_cons.mp (ih (if a.length < best.length then a else best)) with h | h
        · rw [h]
          split <;> simp
        · simp [h]
  cases ls with
  | nil => simp [shortest] at h
  | cons a ls =>
      obtain rfl := Option.some.inj h
      exact hfoldl ls a

/-- A tuple fits if it has the pattern's constant at each of the positions where there is one. -/
theorem fits_iff {pattern : List (Option Nat)} {args : List Nat} (hlength : pattern.length = args.length) :
    fits pattern args = true ↔ ∀ (position c : Nat), pattern[position]? = some (some c) → args[position]? = some c := by
  simp only [fits, List.all_eq_true, Prod.forall]
  constructor
  · intro hall position c hc
    have hlt : position < args.length := hlength ▸ (List.getElem?_eq_some_iff.mp hc).1
    have harg : args[position]? = some args[position] := List.getElem?_eq_getElem hlt
    have hzip : (some c, args[position]) ∈ pattern.zip args :=
      List.mem_of_getElem? (i := position) (by simp [List.getElem?_zip_eq_some, hc, harg])
    have heq : (c == args[position]) = true := hall _ _ hzip
    rw [harg, beq_iff_eq.mp heq]
  · intro hagree p a hzip
    obtain ⟨position, hposition⟩ := List.mem_iff_getElem?.mp hzip
    obtain ⟨hp, ha⟩ := List.getElem?_zip_eq_some.mp hposition
    cases p with
    | none => rfl
    | some c =>
        have heq : a = c := Option.some.inj (ha.symm.trans (hagree position c hp))
        rw [heq, Option.all_some, beq_self_eq_true]

/-- Only constants that the pattern has are looked up. -/
theorem mem_occurrenceLists {t : FactTable} {pattern : List (Option Nat)} {places : List Nat} :
    places ∈ t.occurrenceLists pattern ↔
      ∃ position c : Nat, pattern[position]? = some (some c) ∧ t.occurrences position c = places := by
  simp only [occurrenceLists, List.mem_filterMap, Prod.exists, List.mem_zipIdx_iff_getElem?, Option.map_eq_some_iff]
  constructor
  · rintro ⟨p, position, hp, c, rfl, rfl⟩
    exact ⟨position, c, hp, rfl⟩
  · rintro ⟨position, c, hc, rfl⟩
    exact ⟨some c, position, hc, c, rfl, rfl⟩

/-- No tuple that fits is missed, if the table has all positions of the pattern. -/
theorem Indexed.mem_matching {t : FactTable} (h : t.Indexed) {pattern : List (Option Nat)} {args : List Nat}
    (hpattern : pattern.length ≤ t.arity) (hlength : pattern.length = args.length)
    (hargs : args ∈ t.facts) (hfits : fits pattern args = true) : args ∈ t.matching pattern := by
  rw [matching]
  cases hs : shortest (t.occurrenceLists pattern) with
  | none => exact hargs
  | some places =>
      obtain ⟨position, c, hget, rfl⟩ := mem_occurrenceLists.mp (mem_of_shortest hs)
      have hposition : position < pattern.length := (List.getElem?_eq_some_iff.mp hget).1
      obtain ⟨place, hplace⟩ := List.mem_iff_getElem?.mp hargs
      refine List.mem_filter.mpr ⟨List.mem_filterMap.mpr ⟨place, ?_, hplace⟩, hfits⟩
      exact h _ _ _ _ hplace (by omega) ((fits_iff hlength).mp hfits position c hget)

end HtnPlanner.FactTable
