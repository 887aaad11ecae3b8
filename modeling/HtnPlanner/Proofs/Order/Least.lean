import HtnPlanner.Proofs.Order.Closure

/-!
A pass of the closure may change the rows where they stand, one after the other, as the row it adds is copied first.
What comes out in the end is the least transitive relation that has the pairs which were put in.
-/

namespace HtnPlanner

namespace FinRel

open Relation

variable {r : FinRel} {n k m : Nat} {pairs : List (Nat × Nat)}

/-! ### Row by row -/

/-- Row `i` is read and changed in the relation as it stands; `through` is the copy of row `k`. -/
def closeRow (k : Nat) (through : IndexSet) (r : FinRel) (i : Nat) : FinRel :=
  if r.holds i k then ⟨r.rows.modify i (·.union through)⟩ else r

def closeRows (r : FinRel) (k : Nat) : FinRel := (List.range r.size).foldl (closeRow k (r.row k)) r

/-- The closure in one matrix: each row is found as the rows and passes before have left it. -/
def closeInPlace (r : FinRel) : FinRel := (List.range r.size).foldl closeRows r

theorem size_closeRow (k : Nat) (through : IndexSet) (r : FinRel) (i : Nat) :
    (closeRow k through r i).size = r.size := by
  rw [closeRow]
  split
  · simp [size]
  · rfl

theorem holds_closeRow (through : IndexSet) {i : Nat} (hi : i < r.size) (a b : Nat) :
    (closeRow k through r i).holds a b = (r.holds a b || (decide (a = i) && r.holds i k && through.contains b)) := by
  rw [closeRow]
  split
  · next h =>
      have hi : i < r.rows.length := hi
      simp only [holds, row, List.getD_eq_getElem?_getD, List.getElem?_modify] at h ⊢
      by_cases hai : a = i
      · subst hai
        simp only [List.getElem?_eq_getElem hi, Option.getD_some] at h ⊢
        simp [h]
      · simp [hai, Ne.symm hai]
  · next h => simp [h]

/-- After the first `m` rows of a pass these have what the pass is to add, and the others are as before. -/
theorem holds_foldl_closeRow (r : FinRel) (k : Nat) (hm : m ≤ r.size) :
    ((List.range m).foldl (closeRow k (r.row k)) r).size = r.size ∧
      ∀ a b, ((List.range m).foldl (closeRow k (r.row k)) r).holds a b =
        (r.holds a b || (decide (a < m) && r.holds a k && r.holds k b)) := by
  induction m with
  | zero => simp
  | succ m ih =>
      obtain ⟨hsize, hholds⟩ := ih (by omega)
      rw [List.range_succ, List.foldl_append, List.foldl_cons, List.foldl_nil]
      refine ⟨(size_closeRow ..).trans hsize, fun a b => ?_⟩
      have hlt : m < ((List.range m).foldl (closeRow k (r.row k)) r).size := by omega
      rw [holds_closeRow _ hlt, hholds, hholds, show (r.row k).contains b = r.holds k b from rfl]
      -- row `m` is read at `k` after the rows before it have changed, which do not concern it
      grind

theorem closeRows_eq_closeThrough (r : FinRel) (k : Nat) : r.closeRows k = r.closeThrough k := by
  obtain ⟨hsize, hholds⟩ := holds_foldl_closeRow r k (Nat.le_refl _)
  refine ext (hsize.trans (size_closeThrough r k).symm) fun a b => ?_
  rw [closeRows, hholds, holds_closeThrough]
  have hlt : r.holds a k = true → a < r.size := lt_size_of_holds
  grind

theorem closeInPlace_eq_close (r : FinRel) : r.closeInPlace = r.close := by
  rw [closeInPlace, close, funext₂ closeRows_eq_closeThrough]

/-- The matrix when the passes below `k` are done and the next one has come to row `m`. -/
def midPass (r : FinRel) (k m : Nat) : FinRel :=
  let q := (List.range k).foldl closeRows r
  (List.range m).foldl (closeRow k (q.row k)) q

/-- What is above row `m` goes through `k` already, and the rest does not yet. -/
theorem holds_midPass (k : Nat) (hm : m ≤ r.size) (i j : Nat) : (r.midPass k m).holds i j = true ↔
    Via (fun a b => r.holds a b = true) (if i < m then k + 1 else k) i j := by
  have hsize : m ≤ ((List.range k).foldl closeThrough r).size := by rwa [size_foldl_closeThrough]
  rw [midPass, funext₂ closeRows_eq_closeThrough, (holds_foldl_closeRow _ k hsize).2]
  simp only [Bool.or_eq_true, Bool.and_eq_true, decide_eq_true_eq, holds_foldl_closeThrough]
  split
  · next h => rw [Via.succ_iff, and_iff_right h]
  · next h => simp [h]

/-! ### The least closed relation -/

/-- `r` is the least transitive relation that has the pairs of `R`. -/
structure IsClosure (R : Nat → Nat → Prop) (r : FinRel) : Prop where
  transitive : r.Transitive
  contains : ∀ i j, R i j → r.holds i j = true
  least : ∀ Q : Nat → Nat → Prop, (∀ i j k, Q i j → Q j k → Q i k) → (∀ i j, R i j → Q i j) →
    ∀ i j, r.holds i j = true → Q i j

theorem isClosure_of_holds_iff {R : Nat → Nat → Prop} (h : ∀ i j, r.holds i j = true ↔ TransGen R i j) :
    IsClosure R r := by
  refine ⟨fun i j k hij hjk => ?_, fun i j hij => (h i j).mpr (.single hij), fun Q htrans hQ i j hij => ?_⟩
  · exact (h i k).mpr (((h i j).mp hij).trans ((h j k).mp hjk))
  · have : IsTrans Nat Q := ⟨htrans⟩
    exact transGen_minimal hQ i j ((h i j).mp hij)

theorem IsClosure.eq {R : Nat → Nat → Prop} {q : FinRel} (hr : IsClosure R r) (hq : IsClosure R q)
    (hsize : r.size = q.size) : r = q := by
  refine ext hsize fun i j => Bool.eq_iff_iff.mpr ⟨?_, ?_⟩
  · exact hr.least _ hq.transitive hq.contains i j
  · exact hq.least _ hr.transitive hr.contains i j

theorem isClosure_close (r : FinRel) : IsClosure (fun i j => r.holds i j = true) r.close :=
  isClosure_of_holds_iff (holds_close r)

theorem isClosure_ofPairs (h : ∀ p ∈ pairs, p.1 < n) : IsClosure (fun i j => (i, j) ∈ pairs) (ofPairs n pairs) :=
  isClosure_of_holds_iff (holds_ofPairs h)

/-- Pairs may be given in any order and more than once. -/
theorem ofPairs_congr {pairs' : List (Nat × Nat)} (h : ∀ p ∈ pairs, p.1 < n) (hmem : ∀ p, p ∈ pairs' ↔ p ∈ pairs) :
    ofPairs n pairs' = ofPairs n pairs := by
  have hpairs' := isClosure_ofPairs fun p hp => h p ((hmem p).mp hp)
  simp only [hmem] at hpairs'
  exact hpairs'.eq (isClosure_ofPairs h) (by rw [size_ofPairs, size_ofPairs])

/-- The closure is reachability by one pair or more, and nothing less would do. It is the same in whatever order the
pairs are added, in one matrix or pass by pass, and a second closure changes nothing. -/
theorem ofPairs_is_reachability (h : ∀ p ∈ pairs, p.1 < n ∧ p.2 < n) :
    ofPairs? n pairs = some (ofPairs n pairs) ∧ (ofPairs n pairs).size = n ∧
      (∀ i j, (ofPairs n pairs).holds i j = true ↔ TransGen (fun a b => (a, b) ∈ pairs) i j) ∧
      IsClosure (fun i j => (i, j) ∈ pairs) (ofPairs n pairs) ∧
      (∀ pairs', (∀ p, p ∈ pairs' ↔ p ∈ pairs) → ofPairs n pairs' = ofPairs n pairs) ∧
      ofPairs n pairs = ((empty n).addAll pairs).closeInPlace ∧
      ∀ r : FinRel, r.closeInPlace = r.close ∧ r.close.close = r.close ∧
        IsClosure (fun i j => r.holds i j = true) r.close ∧
        ∀ k m, m ≤ r.size → ∀ i j, (r.midPass k m).holds i j = true ↔
          Via (fun a b => r.holds a b = true) (if i < m then k + 1 else k) i j := by
  have hfirst : ∀ p ∈ pairs, p.1 < n := fun p hp => (h p hp).1
  exact ⟨ofPairs?_eq h, size_ofPairs n pairs, holds_ofPairs hfirst, isClosure_ofPairs hfirst,
    fun pairs' => ofPairs_congr hfirst, (closeInPlace_eq_close _).symm,
    fun r => ⟨closeInPlace_eq_close r, (transitive_close r).close_eq, isClosure_close r, fun k _ => holds_midPass k⟩⟩

/-- A circle of two numbers that leads to a third, and a fourth that follows itself. -/
theorem ofPairs_is_reachability_circle :
    (∀ p ∈ [(0, 1), (1, 0), (1, 2), (3, 3)], p.1 < 4 ∧ p.2 < 4) ∧
      (ofPairs 4 [(0, 1), (1, 0), (1, 2), (3, 3)]).pairs = [(0, 0), (0, 1), (0, 2), (1, 0), (1, 1), (1, 2), (3, 3)] ∧
      TransGen (fun a b => (a, b) ∈ [(0, 1), (1, 0), (1, 2), (3, 3)]) 0 0 ∧
      ¬ TransGen (fun a b => (a, b) ∈ [(0, 1), (1, 0), (1, 2), (3, 3)]) 2 2 ∧
      ofPairs 4 [(3, 3), (1, 2), (1, 2), (1, 0), (0, 1)] = ofPairs 4 [(0, 1), (1, 0), (1, 2), (3, 3)] := by
  have hlt : ∀ p ∈ [(0, 1), (1, 0), (1, 2), (3, 3)], p.1 < 4 ∧ p.2 < 4 := by decide
  obtain ⟨-, -, hpath, -, hcongr, -⟩ := ofPairs_is_reachability hlt
  refine ⟨hlt, by decide +kernel, (hpath 0 0).mp (by decide), (hpath 2 2).not.mp (by decide), hcongr _ fun p => ?_⟩
  simp only [List.mem_cons, List.not_mem_nil, or_false]
  tauto

end FinRel

end HtnPlanner
