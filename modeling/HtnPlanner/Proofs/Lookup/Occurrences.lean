import HtnPlanner.Proofs.Lookup.Binder
import HtnPlanner.Proofs.Order.Reach
import Std.Data.HashSet.Lemmas

/-!
A table does what the plain list of its tuples does that keeps the first of equal ones. It is filled one constant at a
time, and its tuples are kept as a set as well. The tuples that fit a pattern are found in whichever list of
occurrences they are looked for.
-/

namespace HtnPlanner

/-! ### One list of occurrences is as good as another -/

namespace FactTable

variable {t : FactTable} {pattern : List (Option Nat)}

theorem filterMap_getElem?_positions (p : List Nat → Bool) (facts : List (List Nat)) :
    (positions p facts).filterMap (facts[·]?) = facts.filter p := by
  have hmap : (positions p facts).filterMap (facts[·]?) = ((positions p facts).map (facts[·]?)).filterMap id := by
    rw [List.filterMap_map]
    rfl
  rw [hmap, map_getElem?_positions]
  simp

theorem Listed.filter_occurrences (h : t.Listed) (huniform : t.Uniform) (hlength : pattern.length = t.arity)
    {places : List Nat} (hplaces : places ∈ t.occurrenceLists pattern) :
    (places.filterMap (t.facts[·]?)).filter (fits pattern) = t.facts.filter (fits pattern) := by
  obtain ⟨position, c, hc, rfl⟩ := mem_occurrenceLists.mp hplaces
  have hposition : position < t.arity := hlength ▸ (List.getElem?_eq_some_iff.mp hc).1
  rw [h position hposition c, filterMap_getElem?_positions, List.filter_filter]
  refine List.filter_congr fun args hargs => ?_
  rw [Bool.eq_iff_iff, Bool.and_eq_true, and_iff_left_iff_imp, beq_iff_eq]
  exact fun hfits => (fits_iff (hlength.trans (huniform.length args hargs).symm)).mp hfits position c hc

theorem Listed.matching_eq (h : t.Listed) (huniform : t.Uniform) (hlength : pattern.length = t.arity) :
    t.matching pattern = t.facts.filter (fits pattern) := by
  rw [matching]
  cases hs : shortest (t.occurrenceLists pattern) with
  | some places => exact h.filter_occurrences huniform hlength (mem_of_shortest hs)
  | none =>
      have hnone : t.occurrenceLists pattern = [] := by
        cases hlists : t.occurrenceLists pattern with
        | nil => rfl
        | cons l ls => simp [hlists, shortest] at hs
      refine (List.filter_eq_self.mpr fun args hargs => ?_).symm
      refine (fits_iff (hlength.trans (huniform.length args hargs).symm)).mpr fun position c hc => ?_
      have hmem := mem_occurrenceLists (t := t).mpr ⟨position, c, hc, rfl⟩
      exact absurd (hnone ▸ hmem) List.not_mem_nil

end FactTable

/-! ### Tables that are filled one constant at a time -/

namespace Lookup

/-- A table, and the set of its tuples. -/
structure Table where
  rows : FactTable
  known : Std.HashSet (List Nat) := ∅

/-- Notes in the index of a position that the tuple stored at a place has a constant there. -/
def noteAt (place : Nat) (index : List (Std.TreeMap Nat (List Nat))) (p : Nat × Nat) :
    Option (List (Std.TreeMap Nat (List Nat))) :=
  if p.2 < index.length then some (index.modify p.2 (FactTable.note place (some p.1))) else none

def noteAll (place : Nat) (args : List Nat) (index : List (Std.TreeMap Nat (List Nat))) :
    Option (List (Std.TreeMap Nat (List Nat))) :=
  args.zipIdx.foldlM (noteAt place) index

namespace Table

/-- Whether the tuple is a new one, and the table with it. -/
def insert (t : Table) (args : List Nat) : Option (Bool × Table) :=
  if t.known.contains args then some (false, t)
  else (noteAll t.rows.size args t.rows.index).map fun index =>
    (true, ⟨⟨t.rows.facts ++ [args], index⟩, t.known.insert args⟩)

/-- The answers to the insertions, and the table that they leave. -/
def insertAll (t : Table) : List (List Nat) → Option (List Bool × Table)
  | [] => some ([], t)
  | args :: rest => do
    let (new, t) ← t.insert args
    let (answers, t) ← t.insertAll rest
    some (new :: answers, t)

def contains (t : Table) (args : List Nat) : Bool := t.known.contains args

def count (t : Table) (pattern : List (Option Nat)) : Option Nat := (matching t.rows pattern).map List.length

end Table

theorem foldlM_noteAt_eq (place : Nat) (args : List Nat) (k : Nat) (index : List (Std.TreeMap Nat (List Nat)))
    (hlength : k + args.length ≤ index.length) : (args.zipIdx k).foldlM (noteAt place) index =
      some (index.mapIdx fun position =>
        FactTable.note place (if k ≤ position then args[position - k]? else none)) := by
  induction args generalizing k index with
  | nil => exact congrArg some (List.ext_getElem (by simp) (by simp [FactTable.note]))
  | cons c args ih =>
      rw [List.length_cons] at hlength
      rw [List.zipIdx_cons, List.foldlM_cons, noteAt, if_pos (by omega), Option.bind_eq_bind, Option.bind_some,
        ih (k + 1) _ (by rw [List.length_modify]; omega)]
      refine congrArg some (List.ext_getElem (by simp) fun position hposition _ => ?_)
      simp only [List.getElem_mapIdx, List.getElem_modify]
      rcases Nat.lt_trichotomy position k with hlt | rfl | hgt
      · rw [if_neg (by omega), if_neg (by omega), if_neg (by omega)]
      · rw [if_neg (by omega), if_pos rfl, if_pos le_rfl, Nat.sub_self]
        rfl
      · have hsub : position - k = position - (k + 1) + 1 := by omega
        rw [if_pos (by omega), if_neg (by omega), if_pos hgt.le, hsub, List.getElem?_cons_succ]

theorem noteAll_eq {place : Nat} {args : List Nat} {index : List (Std.TreeMap Nat (List Nat))}
    (hlength : args.length ≤ index.length) :
    noteAll place args index = some (index.mapIdx fun position => FactTable.note place args[position]?) := by
  rw [noteAll, foldlM_noteAt_eq place args 0 index (by omega)]
  simp only [Nat.zero_le, if_true, Nat.sub_zero]

namespace Table

variable {t : Table} {arity : Nat} {tuples rest : List (List Nat)} {args : List Nat}

/-- The table after these insertions. -/
structure Holds (t : Table) (arity : Nat) (tuples : List (List Nat)) : Prop where
  rows : t.rows = .ofList arity tuples
  known : ∀ args, t.contains args = tuples.contains args

theorem holds_empty (arity : Nat) : Holds ⟨.empty arity, ∅⟩ arity [] :=
  ⟨rfl, fun args => by simp [contains]⟩

theorem Holds.insert (h : t.Holds arity tuples) (hlength : args.length = arity) :
    ∃ t', t.insert args = some (!tuples.contains args, t') ∧ t'.Holds arity (tuples ++ [args]) := by
  have hstored : (FactTable.ofList arity tuples).contains args = tuples.contains args := by
    rw [FactTable.contains, FactTable.facts_ofList, Bool.eq_iff_iff]
    simp
  rw [Table.insert, ← contains, h.known]
  by_cases hmem : tuples.contains args = true
  · refine ⟨t, by rw [if_pos hmem, hmem]; rfl, ?_, fun other => ?_⟩
    · rw [h.rows, FactTable.ofList_concat, FactTable.insert, hstored, if_pos hmem]
    · rw [h.known, Bool.eq_iff_iff]
      have hargs : args ∈ tuples := List.contains_iff_mem.mp hmem
      simp only [List.contains_iff_mem, List.mem_append, List.mem_singleton]
      exact (or_iff_left_of_imp fun heq => heq ▸ hargs).symm
  · have hmem : tuples.contains args = false := Bool.eq_false_iff.mpr hmem
    have hindex : args.length ≤ t.rows.index.length := by
      rw [h.rows, ← FactTable.arity, FactTable.arity_ofList, hlength]
    rw [hmem, if_neg Bool.false_ne_true, noteAll_eq hindex]
    refine ⟨_, rfl, ?_, fun other => ?_⟩
    · rw [h.rows, FactTable.ofList_concat, FactTable.insert, hstored, hmem, if_neg Bool.false_ne_true]
    · have hknown : t.known.contains other = tuples.contains other := h.known other
      rw [contains, Std.HashSet.contains_insert, hknown, Bool.eq_iff_iff]
      simp [or_comm, eq_comm (a := args)]

theorem Holds.insertAll (h : t.Holds arity tuples) (hrest : ∀ args ∈ rest, args.length = arity) :
    ∃ t', t.insertAll rest = some (rest.mapIdx fun i args => !(tuples ++ rest.take i).contains args, t') ∧
      t'.Holds arity (tuples ++ rest) := by
  induction rest generalizing t tuples with
  | nil => exact ⟨t, rfl, by rwa [List.append_nil]⟩
  | cons args rest ih =>
      obtain ⟨t₁, hinsert, h₁⟩ := h.insert (hrest args List.mem_cons_self)
      obtain ⟨t₂, hall, h₂⟩ := ih h₁ fun args hargs => hrest args (List.mem_cons_of_mem _ hargs)
      refine ⟨t₂, ?_, by rwa [List.append_cons]⟩
      rw [Table.insertAll, hinsert, Option.bind_eq_bind, Option.bind_some]
      dsimp only
      rw [hall]
      simp [List.mapIdx_cons]

/-- A table of tuples of one length answers an insertion by whether the tuple is new, knows just the tuples that were
inserted, and finds for a pattern, in the order of first insertion and once each, those that have its constants. These
are the same whichever list of occurrences they are looked for in, as each lists the places of the tuples with a
constant at a position, ascending. -/
theorem insertAll_refines_list (h : ∀ args ∈ tuples, args.length = arity) :
    ∃ t, insertAll ⟨.empty arity, ∅⟩ tuples = some (tuples.mapIdx fun i args => !(tuples.take i).contains args, t) ∧
      t.rows = .ofList arity tuples ∧ t.rows.facts = tuples.eraseDups ∧
      (∀ args, t.contains args = true ↔ args ∈ tuples) ∧
      (∀ args, args.length ≠ arity → t.contains args = false) ∧
      (∀ args, t.rows.contains args = t.contains args) ∧
      (∀ position < arity, ∀ c,
        t.rows.occurrences position c = positions (·[position]? == some c) tuples.eraseDups) ∧
      ∀ pattern, pattern.length = arity →
        matching t.rows pattern = some (t.rows.matching pattern) ∧
        t.rows.matching pattern = tuples.eraseDups.filter (FactTable.fits pattern) ∧
        (t.rows.matching pattern).Nodup ∧
        (∀ args, args ∈ t.rows.matching pattern ↔
          args ∈ tuples ∧ ∀ position c : Nat, pattern[position]? = some (some c) → args[position]? = some c) ∧
        (∀ places ∈ t.rows.occurrenceLists pattern,
          (places.filterMap (t.rows.facts[·]?)).filter (FactTable.fits pattern) = t.rows.matching pattern) ∧
        t.count pattern = some (t.rows.matching pattern).length := by
  obtain ⟨t, hanswers, hholds⟩ := (holds_empty arity).insertAll h
  have hknown : ∀ args, t.contains args = true ↔ args ∈ tuples := fun args => by
    rw [hholds.known, List.nil_append, List.contains_iff_mem]
  have hrows : t.rows = .ofList arity tuples := hholds.rows
  have hfacts : t.rows.facts = tuples.eraseDups := by rw [hrows, FactTable.facts_ofList]
  have hlisted : t.rows.Listed := hrows ▸ FactTable.listed_ofList arity tuples
  have huniform : t.rows.Uniform := hrows ▸ FactTable.uniform_ofList h
  have harity : t.rows.arity = arity := hrows ▸ FactTable.arity_ofList arity tuples
  refine ⟨t, hanswers, hrows, hfacts, hknown, fun args hlength => ?_, fun args => ?_, fun position hposition c => ?_,
    fun pattern hpattern => ?_⟩
  · exact Bool.eq_false_iff.mpr fun hargs => hlength (h args ((hknown args).mp hargs))
  · rw [Bool.eq_iff_iff, hknown, FactTable.contains, hfacts, List.contains_iff_mem, List.mem_eraseDups]
  · rw [hlisted position (harity ▸ hposition) c, hfacts]
  · rw [← harity] at hpattern
    have hmatching : t.rows.matching pattern = tuples.eraseDups.filter (FactTable.fits pattern) := by
      rw [hlisted.matching_eq huniform hpattern, hfacts]
    have hfound : matching t.rows pattern = some (t.rows.matching pattern) := matching_eq huniform hpattern
    refine ⟨hfound, hmatching, ?_, fun args => ?_, fun places hplaces => ?_, by rw [count, hfound]; rfl⟩
    · exact hmatching ▸ (nodup_eraseDups tuples).filter _
    · rw [hmatching, List.mem_filter, List.mem_eraseDups]
      refine and_congr_right fun hargs => FactTable.fits_iff ?_
      rw [hpattern, harity, h args hargs]
    · rw [hlisted.filter_occurrences huniform hpattern hplaces, hlisted.matching_eq huniform hpattern]

/-- Of four insertions one is a repetition, and two tuples start with the constant that is asked for. -/
theorem insertAll_refines_list_repeated :
    let tuples := [[0, 2], [3, 1], [0, 1], [0, 2]]
    (∀ args ∈ tuples, args.length = 2) ∧
      ∃ t, insertAll ⟨.empty 2, ∅⟩ tuples = some ([true, true, true, false], t) ∧ t.contains [3, 1] = true ∧
        t.contains [3] = false ∧ matching t.rows [some 0, none] = some [[0, 2], [0, 1]] ∧
        t.count [some 0, none] = some 2 := by
  intro tuples
  have hlength : ∀ args ∈ tuples, args.length = 2 := by decide
  obtain ⟨t, hanswers, -, -, hknown, hother, -, -, hpattern⟩ := insertAll_refines_list hlength
  obtain ⟨hfound, hmatching, -, -, -, hcount⟩ := hpattern [some 0, none] rfl
  have htwo : t.rows.matching [some 0, none] = [[0, 2], [0, 1]] := hmatching.trans (by decide +kernel)
  refine ⟨hlength, t, hanswers, (hknown _).mpr (by decide), hother _ (by decide), ?_, ?_⟩
  · rw [hfound, htwo]
  · rw [hcount, htwo]
    rfl

end Table

end Lookup

end HtnPlanner
