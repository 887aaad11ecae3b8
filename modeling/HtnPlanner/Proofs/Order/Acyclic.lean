import HtnPlanner.Proofs.Order.Closure
import Mathlib.Data.Fintype.Card
import Mathlib.Data.Fintype.EquivFin
import Mathlib.Data.List.Perm.Basic
import Mathlib.Order.WellFounded

/-!
In a closed relation something comes first, unless it goes round in a circle. Taking a number out brings no
circle about, nor does putting a relation without one in the place of a number, and chains stay chains.
-/

namespace HtnPlanner.FinRel

open Relation

variable {r inner : FinRel} {t : Nat}

/-- No number is related to itself. -/
def Acyclic (r : FinRel) : Prop := ∀ i, r.holds i i = false

theorem acyclic_iff : r.Acyclic ↔ ∀ i < r.size, r.holds i i = false := by
  refine ⟨fun h i _ => h i, fun h i => ?_⟩
  by_contra hi
  rw [Bool.not_eq_false] at hi
  exact absurd hi (by simp [h i (lt_size_of_holds hi)])

instance : Decidable r.Acyclic := decidable_of_iff _ acyclic_iff.symm

theorem Acyclic.erase (h : r.Acyclic) (t : Nat) : (r.erase t).Acyclic := by
  intro i
  simp [FinRel.erase, h (skip t i)]

/-- As `t` does not precede itself, no way from an inserted number through kept ones leads to an inserted one. -/
theorem Acyclic.splice (h : r.Acyclic) (hr : r.Transitive) (hacyclic : inner.Acyclic) (hinner : inner.Transitive)
    (t : Nat) : (r.splice t inner).Acyclic := by
  refine acyclic_iff.mpr fun i hi => ?_
  rw [size_splice] at hi
  rw [holds_splice hr hinner (h t) hi hi, spliced]
  cases decide (i < r.size - 1) with
  | true => exact h (skip t i)
  | false => exact hacyclic (i - (r.size - 1))

theorem Acyclic.wellFounded (h : r.Acyclic) (hr : r.Transitive) :
    WellFounded fun i j : Fin r.size => r.holds i j = true := by
  have : IsTrans (Fin r.size) fun i j => r.holds i j = true := ⟨fun i j k => hr i j k⟩
  have : Std.Irrefl fun i j : Fin r.size => r.holds i j = true := ⟨fun i hi => by simp [h i] at hi⟩
  exact Finite.wellFounded_of_trans_of_irrefl _

theorem Acyclic.exists_minimal (h : r.Acyclic) (hr : r.Transitive) (hsize : 0 < r.size) : ∃ i, i ∈ r.minimal := by
  obtain ⟨i, -, hi⟩ := (h.wellFounded hr).has_min Set.univ ⟨⟨0, hsize⟩, trivial⟩
  refine ⟨i, mem_minimal.mpr ⟨i.isLt, fun j => ?_⟩⟩
  by_contra hj
  rw [Bool.not_eq_false] at hj
  exact hi ⟨j, lt_size_of_holds hj⟩ trivial hj

/-! ### Chains -/

theorem isTotal_iff : r.isTotal = true ↔
    r.Acyclic ∧ ∀ i < r.size, ∀ j < r.size, i ≠ j → r.holds i j = !r.holds j i := by
  simp only [isTotal, List.all_eq_true, List.mem_range, Bool.and_eq_true, Bool.not_eq_true', Bool.or_eq_true,
    decide_eq_true_eq, bne_iff_ne, ne_eq, acyclic_iff]
  constructor
  · intro h
    refine ⟨fun i hi => (h i hi).1, fun i hi j hj hij => ?_⟩
    rcases Nat.lt_or_gt_of_ne hij with hlt | hlt
    · exact Bool.eq_not.mpr (((h i hi).2 j hj).resolve_left (Nat.not_le.mpr hlt))
    · have hne := ((h j hj).2 i hi).resolve_left (Nat.not_le.mpr hlt)
      exact Bool.eq_not.mpr fun heq => hne heq.symm
  · rintro ⟨hacyclic, hne⟩ i hi
    refine ⟨hacyclic i hi, fun j hj => ?_⟩
    by_cases hji : j ≤ i
    · exact Or.inl hji
    · exact Or.inr (Bool.eq_not.mp (hne i hi j hj (by omega)))

theorem isTotal_erase (h : r.isTotal = true) (t : Nat) : (r.erase t).isTotal = true := by
  obtain ⟨hacyclic, hne⟩ := isTotal_iff.mp h
  refine isTotal_iff.mpr ⟨hacyclic.erase t, fun i hi j hj hij => ?_⟩
  rw [size_erase] at hi hj
  rw [holds_erase r t hi hj, holds_erase r t hj hi]
  exact hne _ (skip_lt hi) _ (skip_lt hj) fun heq => hij (skip_injective heq)

/-- Numbers that are inserted compare to those that are kept as the one does whose place they take. -/
theorem isTotal_splice (h : r.isTotal = true) (hr : r.Transitive) (htotal : inner.isTotal = true)
    (hinner : inner.Transitive) (ht : t < r.size) : (r.splice t inner).isTotal = true := by
  obtain ⟨hacyclic, hne⟩ := isTotal_iff.mp h
  obtain ⟨hacyclic', hne'⟩ := isTotal_iff.mp htotal
  refine isTotal_iff.mpr ⟨hacyclic.splice hr hacyclic' hinner t, fun i hi j hj hij => ?_⟩
  rw [size_splice] at hi hj
  rw [holds_splice hr hinner (hacyclic t) hi hj, holds_splice hr hinner (hacyclic t) hj hi, spliced, spliced]
  by_cases hik : i < r.size - 1 <;> by_cases hjk : j < r.size - 1 <;> simp only [hik, hjk, decide_true, decide_false]
  · exact hne _ (skip_lt hik) _ (skip_lt hjk) fun heq => hij (skip_injective heq)
  · exact hne _ (skip_lt hik) _ ht (skip_ne t i)
  · exact hne _ ht _ (skip_lt hjk) (skip_ne t j).symm
  · exact hne' _ (by omega) _ (by omega) (by omega)

theorem exists_minimal_eq_singleton (h : r.isTotal = true) (hr : r.Transitive) (hsize : 0 < r.size) :
    ∃ i, r.minimal = [i] := by
  obtain ⟨hacyclic, hne⟩ := isTotal_iff.mp h
  obtain ⟨i, hi⟩ := hacyclic.exists_minimal hr hsize
  have hnodup : r.minimal.Nodup := List.nodup_range.filter _
  refine ⟨i, List.perm_singleton.mp ((List.perm_ext_iff_of_nodup hnodup (List.nodup_singleton i)).mpr fun j => ?_)⟩
  rw [List.mem_singleton]
  refine ⟨fun hj => ?_, fun hj => hj ▸ hi⟩
  by_contra hji
  obtain ⟨hj, hfirst⟩ := mem_minimal.mp hj
  have hij := hne j hj i (mem_minimal.mp hi).1 hji
  rw [hfirst i, (mem_minimal.mp hi).2 j] at hij
  exact Bool.false_ne_true hij

theorem holds_chain {n i j : Nat} : (chain n).holds i j = true ↔ i < j ∧ j < n := by
  have hmem : ∀ a b, (a, b) ∈ (List.range (n - 1)).map (fun k => (k, k + 1)) ↔ b = a + 1 ∧ b < n := by
    intro a b
    simp only [List.mem_map, List.mem_range, Prod.mk.injEq]
    constructor
    · rintro ⟨k, hk, rfl, rfl⟩
      omega
    · rintro ⟨rfl, hb⟩
      exact ⟨a, by omega, rfl, rfl⟩
  rw [chain, holds_ofPairs (by simp; omega)]
  simp only [hmem]
  constructor
  · intro h
    induction h with
    | single h => omega
    | tail _ h ih => omega
  · rintro ⟨hij, hj⟩
    induction hij with
    | refl => exact .single ⟨rfl, hj⟩
    | step hij ih => exact (ih (by omega)).tail ⟨rfl, hj⟩

theorem isTotal_chain (n : Nat) : (chain n).isTotal = true := by
  refine isTotal_iff.mpr ⟨fun i => ?_, fun i hi j hj hij => ?_⟩
  · rw [← Bool.not_eq_true, holds_chain]
    omega
  · rw [chain, size_ofPairs] at hi hj
    rw [Bool.eq_iff_iff, Bool.not_eq_true', ← Bool.not_eq_true, holds_chain, holds_chain]
    omega

/-- A number in no pair cannot be compared with another. -/
theorem isTotal_ofPairs_eq_false {n i j : Nat} {pairs : List (Nat × Nat)} (h : ∀ p ∈ pairs, p.1 < n) (hi : i < n)
    (hj : j < n) (hij : i ≠ j) (hunused : ∀ p ∈ pairs, p.1 ≠ i ∧ p.2 ≠ i) : (ofPairs n pairs).isTotal = false := by
  rw [← Bool.not_eq_true, isTotal_iff, size_ofPairs]
  rintro ⟨-, hne⟩
  have hforth : (ofPairs n pairs).holds i j = false := by
    rw [← Bool.not_eq_true, holds_ofPairs h]
    intro hway
    obtain ⟨_, hfirst, -⟩ := TransGen.head'_iff.mp hway
    exact (hunused _ hfirst).1 rfl
  have hback : (ofPairs n pairs).holds j i = false := by
    rw [← Bool.not_eq_true, holds_ofPairs h]
    intro hway
    obtain ⟨_, -, hlast⟩ := TransGen.tail'_iff.mp hway
    exact (hunused _ hlast).2 rfl
  have hiff := hne i hi j hj hij
  rw [hforth, hback] at hiff
  exact Bool.false_ne_true hiff

end HtnPlanner.FinRel
