import HtnPlanner.Encoded.TaskNetwork
import Mathlib.Logic.Relation
import Mathlib.Tactic.Common

/-!
The closure of a finite relation is reachability, and a relation that was closed stays closed when a
number is taken out or gives way to another closed relation.
-/

namespace HtnPlanner

namespace FinRel

open Relation

def Transitive (r : FinRel) : Prop :=
  ∀ i j k, r.holds i j = true → r.holds j k = true → r.holds i k = true

theorem lt_size_of_holds {r : FinRel} {i j : Nat} (h : r.holds i j = true) : i < r.size := by
  by_contra hi
  have hrow : r.row i = .empty := by
    simp only [row, List.getD_eq_getElem?_getD]
    rw [List.getElem?_eq_none (by simpa [size] using hi), Option.getD_none]
  simp [holds, hrow] at h

/-- A way of one pair or more on which the numbers in between are all below `k`. -/
inductive Via (R : Nat → Nat → Prop) (k : Nat) : Nat → Nat → Prop
  | single {i j : Nat} (h : R i j) : Via R k i j
  | cons {i m j : Nat} (h : R i m) (hm : m < k) (rest : Via R k m j) : Via R k i j

namespace Via

variable {R : Nat → Nat → Prop} {k l i m j : Nat}

theorem mono (h : Via R k i j) (hkl : k ≤ l) : Via R l i j := by
  induction h with
  | single h => exact .single h
  | cons h hm _ ih => exact .cons h (Nat.lt_of_lt_of_le hm hkl) ih

theorem append (h : Via R k i m) (hm : m < k) (h' : Via R k m j) : Via R k i j := by
  induction h with
  | single h => exact .cons h hm h'
  | cons h hx _ ih => exact .cons h hx (ih hm h')

theorem zero_iff : Via R 0 i j ↔ R i j := by
  refine ⟨fun h => ?_, .single⟩
  cases h with
  | single h => exact h
  | cons _ hm _ => exact absurd hm (Nat.not_lt_zero _)

/-- A way on which `k` may come up is one on which it does not, or leads to `k` first and then from `k` to the end. -/
theorem succ_iff : Via R (k + 1) i j ↔ Via R k i j ∨ Via R k i k ∧ Via R k k j := by
  constructor
  · intro h
    induction h with
    | single h => exact Or.inl (.single h)
    | cons h hm _ ih =>
        rcases Nat.lt_succ_iff_lt_or_eq.mp hm with hlt | rfl
        · exact ih.imp (.cons h hlt) fun hways => ⟨.cons h hlt hways.1, hways.2⟩
        · exact Or.inr ⟨.single h, ih.elim id And.right⟩
  · have hle := Nat.le_succ k
    rintro (h | ⟨h, h'⟩)
    · exact h.mono hle
    · exact (h.mono hle).append (Nat.lt_succ_self k) (h'.mono hle)

theorem transGen (h : Via R k i j) : TransGen R i j := by
  induction h with
  | single h => exact .single h
  | cons h _ _ ih => exact .head h ih

theorem of_transGen (hlt : ∀ {a b}, R a b → a < k) (h : TransGen R i j) : Via R k i j := by
  induction h using TransGen.head_induction_on with
  | single h => exact .single h
  | head h hrest ih =>
      obtain ⟨_, hnext, -⟩ := TransGen.head'_iff.mp hrest
      exact .cons h (hlt hnext) ih

end Via

@[simp] theorem size_foldl_closeThrough (ks : List Nat) (r : FinRel) :
    (ks.foldl FinRel.closeThrough r).size = r.size := by
  induction ks generalizing r with
  | nil => rfl
  | cons k ks ih => rw [List.foldl_cons, ih, size_closeThrough]

@[simp] theorem size_close (r : FinRel) : r.close.size = r.size := size_foldl_closeThrough _ r

/-- The passes for the numbers below `k` find the ways through these numbers. -/
theorem holds_foldl_closeThrough (r : FinRel) (k i j : Nat) :
    ((List.range k).foldl FinRel.closeThrough r).holds i j = true ↔ Via (fun a b => r.holds a b = true) k i j := by
  induction k generalizing i j with
  | zero => rw [Via.zero_iff]; rfl
  | succ k ih =>
      rw [List.range_succ, List.foldl_append, List.foldl_cons, List.foldl_nil, holds_closeThrough, Via.succ_iff,
        Bool.or_eq_true, Bool.and_eq_true, ih, ih, ih]

/-- The closure relates `i` to `j` if there is a way of one pair or more between them. -/
theorem holds_close (r : FinRel) (i j : Nat) :
    r.close.holds i j = true ↔ TransGen (fun a b => r.holds a b = true) i j := by
  rw [close, holds_foldl_closeThrough]
  exact ⟨Via.transGen, Via.of_transGen lt_size_of_holds⟩

theorem transitive_close (r : FinRel) : r.close.Transitive := by
  intro i j k hij hjk
  rw [holds_close] at hij hjk ⊢
  exact hij.trans hjk

theorem Transitive.close_eq {r : FinRel} (h : r.Transitive) : r.close = r := by
  apply ext (size_close r)
  intro i j
  rw [Bool.eq_iff_iff, holds_close]
  constructor
  · intro hij
    induction hij with
    | single hij => exact hij
    | tail _ hjk ih => exact h _ _ _ ih hjk
  · exact fun hij => .single hij

@[simp] theorem size_addAll (r : FinRel) (pairs : List (Nat × Nat)) : (r.addAll pairs).size = r.size := by
  induction pairs generalizing r with
  | nil => rfl
  | cons p pairs ih => rw [addAll, List.foldl_cons, ← addAll, ih, size_add]

theorem holds_addAll (r : FinRel) (pairs : List (Nat × Nat)) (h : ∀ p ∈ pairs, p.1 < r.size) (a b : Nat) :
    (r.addAll pairs).holds a b = true ↔ r.holds a b = true ∨ (a, b) ∈ pairs := by
  induction pairs generalizing r with
  | nil => simp [addAll]
  | cons p pairs ih =>
      have hp : p.1 < r.size := h p List.mem_cons_self
      have hrest : ∀ q ∈ pairs, q.1 < (r.add p.1 p.2).size := fun q hq => by
        simpa using h q (List.mem_cons_of_mem p hq)
      have heq : (a, b) = p ↔ p.1 = a ∧ p.2 = b := by
        rw [Prod.ext_iff]
        exact and_congr eq_comm eq_comm
      rw [addAll, List.foldl_cons, ← addAll, ih _ hrest, holds_add r hp, List.mem_cons, heq]
      simp only [Bool.or_eq_true, decide_eq_true_eq, or_assoc]

@[simp] theorem size_ofPairs (n : Nat) (pairs : List (Nat × Nat)) : (ofPairs n pairs).size = n := by
  simp [ofPairs]

theorem transitive_ofPairs (n : Nat) (pairs : List (Nat × Nat)) : (ofPairs n pairs).Transitive :=
  transitive_close _

theorem holds_ofPairs {n : Nat} {pairs : List (Nat × Nat)} (h : ∀ p ∈ pairs, p.1 < n) (i j : Nat) :
    (ofPairs n pairs).holds i j = true ↔ TransGen (fun a b => (a, b) ∈ pairs) i j := by
  rw [ofPairs, holds_close]
  have hstep : (fun a b => ((empty n).addAll pairs).holds a b = true) = fun a b => (a, b) ∈ pairs := by
    funext a b
    rw [eq_iff_iff, holds_addAll _ _ (by simpa using h)]
    simp
  rw [hstep]

theorem ofPairs?_eq {n : Nat} {pairs : List (Nat × Nat)} (h : ∀ q ∈ pairs, q.1 < n ∧ q.2 < n) :
    ofPairs? n pairs = some (ofPairs n pairs) :=
  if_pos (List.all_eq_true.mpr fun q hq => by simpa using h q hq)

theorem mem_pairs {r : FinRel} {i j : Nat} : (i, j) ∈ r.pairs ↔ j < r.size ∧ r.holds i j = true := by
  simp only [pairs, List.mem_flatMap, List.mem_map, List.mem_filter, List.mem_range, Prod.mk.injEq]
  constructor
  · rintro ⟨i', hi, j', ⟨hj, hij⟩, rfl, rfl⟩
    exact ⟨hj, hij⟩
  · rintro ⟨hj, hij⟩
    exact ⟨i, lt_size_of_holds hij, j, ⟨hj, hij⟩, rfl, rfl⟩

theorem hasPredecessor_iff {r : FinRel} {j : Nat} :
    r.hasPredecessor j = true ↔ ∃ i, r.holds i j = true := by
  simp only [hasPredecessor, List.any_eq_true, holds, row, List.getD_eq_getElem?_getD]
  constructor
  · rintro ⟨s, hs, hj⟩
    obtain ⟨i, hi⟩ := List.mem_iff_getElem?.mp hs
    exact ⟨i, by simpa [hi] using hj⟩
  · rintro ⟨i, hi⟩
    cases hs : r.rows[i]? with
    | none => simp [hs] at hi
    | some s => exact ⟨s, List.mem_of_getElem? hs, by simpa [hs] using hi⟩

theorem mem_minimal {r : FinRel} {j : Nat} :
    j ∈ r.minimal ↔ j < r.size ∧ ∀ i, r.holds i j = false := by
  rw [minimal, List.mem_filter, List.mem_range, Bool.not_eq_true', ← Bool.not_eq_true,
    hasPredecessor_iff]
  simp

/-! ### Taking a number out -/

theorem getElem?_eraseIdx_eq {α : Type} (l : List α) (t i : Nat) : (l.eraseIdx t)[i]? = l[skip t i]? := by
  rw [List.getElem?_eraseIdx, skip]
  split <;> rfl

theorem skip_injective {t i j : Nat} (h : skip t i = skip t j) : i = j := by
  unfold skip at h
  split at h <;> split at h <;> omega

theorem skip_ne (t i : Nat) : skip t i ≠ t := by
  rw [skip]
  split <;> omega

theorem skip_lt {t i n : Nat} (h : i < n - 1) : skip t i < n := by
  rw [skip]
  split <;> omega

theorem unskip_eq_iff {t i j : Nat} (h : j ≠ t) : unskip t j = i ↔ j = skip t i := by
  rw [unskip, skip]
  split <;> split <;> omega

theorem unskip_lt {t j n : Nat} (h : j < n) (ht : t < n) (hne : j ≠ t) : unskip t j < n - 1 := by
  rw [unskip]
  split <;> omega

@[simp] theorem size_erase (r : FinRel) (t : Nat) : (r.erase t).size = r.size - 1 := size_ofPred ..

theorem holds_erase (r : FinRel) (t : Nat) {i j : Nat} (hi : i < r.size - 1) (hj : j < r.size - 1) :
    (r.erase t).holds i j = r.holds (skip t i) (skip t j) := by
  simp [erase, hi, hj]

theorem erase?_eq {r : FinRel} {t : Nat} (ht : t < r.size) : r.erase? t = some (r.erase t) := by
  refine if_pos ⟨by omega, List.all_eq_true.mpr fun q hq => ?_⟩
  obtain ⟨⟨i, j⟩, hij, rfl⟩ := List.mem_map.mp hq
  obtain ⟨hpair, hne⟩ := List.mem_filter.mp hij
  obtain ⟨hj, hrel⟩ := mem_pairs.mp hpair
  simp only [bne_iff_ne, ne_eq, Bool.and_eq_true, decide_eq_true_eq] at hne ⊢
  exact ⟨unskip_lt (lt_size_of_holds hrel) ht hne.1, unskip_lt hj ht hne.2⟩

theorem Transitive.erase {r : FinRel} (h : r.Transitive) (t : Nat) : (r.erase t).Transitive := by
  intro i j k hij hjk
  simp only [FinRel.erase, holds_ofPred, Bool.and_eq_true, decide_eq_true_eq] at hij hjk ⊢
  exact ⟨hij.1, hjk.2.1, h _ _ _ hij.2.2 hjk.2.2⟩

/-! ### Putting a relation in the place of a number -/

/-- The relation that `splice` closes. -/
def spliced (r : FinRel) (t : Nat) (inner : FinRel) (i j : Nat) : Bool :=
  match decide (i < r.size - 1), decide (j < r.size - 1) with
  | true, true => r.holds (skip t i) (skip t j)
  | true, false => r.holds (skip t i) t
  | false, true => r.holds t (skip t j)
  | false, false => inner.holds (i - (r.size - 1)) (j - (r.size - 1))

theorem spliced_trans {r inner : FinRel} {t : Nat} (hr : r.Transitive) (hinner : inner.Transitive)
    (ht : r.holds t t = false) {i j k : Nat} (hij : r.spliced t inner i j = true)
    (hjk : r.spliced t inner j k = true) : r.spliced t inner i k = true := by
  rw [spliced] at *
  cases hi : decide (i < r.size - 1) <;> cases hj : decide (j < r.size - 1) <;>
    cases hk : decide (k < r.size - 1) <;> simp only [hi, hj, hk] at hij hjk ⊢
  -- between two inserted numbers there is no way through a kept one, as `t` does not precede itself
  case false.true.false => exact absurd (hr _ _ _ hij hjk) (by simp [ht])
  case false.false.false => exact hinner _ _ _ hij hjk
  all_goals first | exact hr _ _ _ hij hjk | assumption

/-- Where the parts are closed and `t` does not precede itself, the closure adds nothing. -/
theorem splice_eq_ofPred {r inner : FinRel} {t : Nat} (hr : r.Transitive) (hinner : inner.Transitive)
    (ht : r.holds t t = false) :
    r.splice t inner = ofPred (r.size - 1 + inner.size) (r.spliced t inner) := by
  apply Transitive.close_eq
  intro i j k hij hjk
  simp only [holds_ofPred, Bool.and_eq_true, decide_eq_true_eq] at hij hjk ⊢
  exact ⟨hij.1, hjk.2.1, spliced_trans hr hinner ht hij.2.2 hjk.2.2⟩

@[simp] theorem size_splice (r : FinRel) (t : Nat) (inner : FinRel) :
    (r.splice t inner).size = r.size - 1 + inner.size := by
  simp [splice]

theorem splice?_eq {r : FinRel} {t : Nat} (ht : t < r.size) (inner : FinRel) :
    r.splice? t inner = some (r.splice t inner) := by
  rw [splice?, erase?_eq ht, Option.bind_eq_bind, Option.bind_some, if_pos (Or.inl ht)]

theorem transitive_splice (r : FinRel) (t : Nat) (inner : FinRel) : (r.splice t inner).Transitive :=
  transitive_close _

theorem holds_splice {r inner : FinRel} {t : Nat} (hr : r.Transitive) (hinner : inner.Transitive)
    (ht : r.holds t t = false) {i j : Nat} (hi : i < r.size - 1 + inner.size)
    (hj : j < r.size - 1 + inner.size) : (r.splice t inner).holds i j = r.spliced t inner i j := by
  simp [splice_eq_ofPred hr hinner ht, hi, hj]

end FinRel

/-- The order ranges over the tasks and is closed. -/
structure TaskNetwork.Ordered (n : TaskNetwork) : Prop where
  size : n.order.size = n.tasks.length
  transitive : n.order.Transitive

namespace TaskNetwork.Ordered

variable {n : TaskNetwork} {position : Nat} {subtasks : List Nat} {inner : FinRel}

theorem lt_length (h : n.Ordered) (hfirst : position ∈ n.first) : position < n.tasks.length := by
  rw [← h.size]
  exact (FinRel.mem_minimal.mp hfirst).1

theorem size_pos (h : n.Ordered) (hne : n.tasks ≠ []) : 0 < n.order.size := by
  rw [h.size]
  exact List.length_pos_iff.mpr hne

theorem first_eq_nil (h : n.Ordered) (hempty : n.tasks = []) : n.first = [] := by
  refine List.eq_nil_iff_forall_not_mem.mpr fun i hi => ?_
  have hlt := h.lt_length hi
  rw [hempty] at hlt
  exact Nat.not_lt_zero i hlt

theorem remove (h : n.Ordered) (hposition : position < n.tasks.length) : (n.remove position).Ordered := by
  refine ⟨?_, h.transitive.erase position⟩
  rw [TaskNetwork.remove, FinRel.size_erase, h.size, List.length_eraseIdx_of_lt hposition]

theorem decompose (h : n.Ordered) (hposition : position < n.tasks.length) (hinner : inner.size = subtasks.length) :
    (n.decompose position subtasks inner).Ordered := by
  refine ⟨?_, FinRel.transitive_splice _ _ _⟩
  rw [TaskNetwork.decompose, FinRel.size_splice, h.size, hinner, List.length_append,
    List.length_eraseIdx_of_lt hposition]

end TaskNetwork.Ordered

end HtnPlanner
