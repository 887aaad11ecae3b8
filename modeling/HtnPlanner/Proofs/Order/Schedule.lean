import HtnPlanner.Proofs.Order.Acyclic
import Mathlib.Data.List.Sort
import Mathlib.Order.Extension.Linear

/-!
The numbers of a relation can be put in one order only, in which its pairs point forward, just when any two of them are
comparable. Where there is no circle a linear order extends the relation, and where two numbers are left apart the pair
of them can be added in either direction.
-/

namespace HtnPlanner

open Relation

variable {n : Nat} {pairs : List (Nat × Nat)} {l : List Nat}

/-- The numbers below `n` in an order in which the first of each pair comes before the second. -/
structure IsSchedule (n : Nat) (pairs : List (Nat × Nat)) (l : List Nat) : Prop where
  perm : l.Perm (List.range n)
  forward : ∀ q ∈ pairs, l.idxOf q.1 < l.idxOf q.2

theorem rel_of_idxOf_lt {R : Nat → Nat → Prop} (h : l.Pairwise R) {a b : Nat} (hb : b ∈ l)
    (hlt : l.idxOf a < l.idxOf b) : R a b := by
  have hblt : l.idxOf b < l.length := List.idxOf_lt_length_of_mem hb
  have hrel := List.pairwise_iff_getElem.mp h _ _ (hlt.trans hblt) hblt hlt
  rwa [List.getElem_idxOf, List.getElem_idxOf] at hrel

namespace IsSchedule

theorem mem_iff (h : IsSchedule n pairs l) {a : Nat} : a ∈ l ↔ a < n := by
  rw [h.perm.mem_iff, List.mem_range]

theorem nodup (h : IsSchedule n pairs l) : l.Nodup := h.perm.nodup_iff.mpr List.nodup_range

theorem of_cons {q : Nat × Nat} (h : IsSchedule n (q :: pairs) l) : IsSchedule n pairs l :=
  ⟨h.perm, fun q hq => h.forward q (List.mem_cons_of_mem _ hq)⟩

theorem lt_of_path (h : IsSchedule n pairs l) {a b : Nat} (hab : TransGen (fun i j => (i, j) ∈ pairs) a b) :
    l.idxOf a < l.idxOf b := by
  induction hab with
  | single hab => exact h.forward _ hab
  | tail _ hbc ih => exact ih.trans (h.forward _ hbc)

end IsSchedule

namespace FinRel

variable {r : FinRel} {a b i j : Nat}

/-! ### Orders that a relation leaves -/

/-- A closed relation without a circle is part of a linear order, by which the numbers can be sorted. -/
theorem Acyclic.exists_sorted (h : r.Acyclic) (hr : r.Transitive) (n : Nat) : ∃ l : List Nat, l.Perm (List.range n) ∧
    ∀ a < n, ∀ b < n, r.holds a b = true → l.idxOf a < l.idxOf b := by
  classical
  have hne : ∀ {a b}, r.holds a b = true → a ≠ b := by
    rintro a b hab rfl
    simp [h a] at hab
  have horder : IsPartialOrder Nat fun a b => a = b ∨ r.holds a b = true := {
    refl := fun a => Or.inl rfl
    trans := by
      rintro a b c (rfl | hab) (rfl | hbc)
      · exact Or.inl rfl
      · exact Or.inr hbc
      · exact Or.inr hab
      · exact Or.inr (hr a b c hab hbc)
    antisymm := by
      rintro a b (rfl | hab) (hba | hba)
      · rfl
      · rfl
      · exact hba.symm
      · exact absurd rfl (hne (hr a b a hab hba)) }
  obtain ⟨s, hs, hle⟩ := extend_partialOrder fun a b => a = b ∨ r.holds a b = true
  refine ⟨(List.range n).insertionSort s, List.perm_insertionSort s _, fun a ha b hb hab => ?_⟩
  have hsorted := List.pairwise_insertionSort s (List.range n)
  have hmem : ∀ {c}, c ∈ (List.range n).insertionSort s ↔ c < n := (List.mem_insertionSort s).trans List.mem_range
  by_contra hlt
  have hidx : ((List.range n).insertionSort s).idxOf a ≠ ((List.range n).insertionSort s).idxOf b := fun heq =>
    hne hab ((List.idxOf_inj (hmem.mpr ha)).mp heq)
  have hba : s b a := rel_of_idxOf_lt hsorted (hmem.mpr ha) (by omega)
  exact hne hab (antisymm (hle a b (Or.inr hab)) hba)

/-- What a pair more makes of the ways there are. -/
theorem transGen_cons (h : TransGen (fun i j => (i, j) ∈ (a, b) :: pairs) i j) :
    TransGen (fun i j => (i, j) ∈ pairs) i j ∨
      ReflTransGen (fun i j => (i, j) ∈ pairs) i a ∧ ReflTransGen (fun i j => (i, j) ∈ pairs) b j := by
  induction h with
  | single h =>
      rcases List.mem_cons.mp h with h | h
      · obtain ⟨rfl, rfl⟩ := Prod.mk.inj h
        exact Or.inr ⟨.refl, .refl⟩
      · exact Or.inl (.single h)
  | tail _ h ih =>
      rcases List.mem_cons.mp h with h | h
      · obtain ⟨rfl, rfl⟩ := Prod.mk.inj h
        exact Or.inr ⟨ih.elim TransGen.to_reflTransGen And.left, .refl⟩
      · exact ih.imp (·.tail h) fun hway => ⟨hway.1, hway.2.tail h⟩

/-- A pair may be added between two numbers of which the second does not come before the first. -/
theorem acyclic_ofPairs_cons (h : ∀ q ∈ pairs, q.1 < n) (hacyclic : (ofPairs n pairs).Acyclic) (ha : a < n)
    (hab : a ≠ b) (hba : (ofPairs n pairs).holds b a = false) : (ofPairs n ((a, b) :: pairs)).Acyclic := by
  intro i
  by_contra hi
  rw [Bool.not_eq_false, holds_ofPairs (List.forall_mem_cons.mpr ⟨ha, h⟩)] at hi
  rcases transGen_cons hi with hi | ⟨hia, hbi⟩
  · rw [← holds_ofPairs h, hacyclic i] at hi
    exact Bool.false_ne_true hi
  · rcases reflTransGen_iff_eq_or_transGen.mp (hbi.trans hia) with heq | hway
    · exact hab heq
    · rw [← holds_ofPairs h, hba] at hway
      exact Bool.false_ne_true hway

theorem exists_schedule (h : ∀ q ∈ pairs, q.1 < n ∧ q.2 < n) (hacyclic : (ofPairs n pairs).Acyclic) :
    ∃ l, IsSchedule n pairs l := by
  obtain ⟨l, hperm, hforward⟩ := hacyclic.exists_sorted (transitive_ofPairs n pairs) n
  refine ⟨l, hperm, fun q hq => hforward q.1 (h q hq).1 q.2 (h q hq).2 ?_⟩
  exact (holds_ofPairs (fun q hq => (h q hq).1) _ _).mpr (.single hq)

/-- If the second of two numbers does not come before the first, a schedule may have the first before it. -/
theorem exists_schedule_before (h : ∀ q ∈ pairs, q.1 < n ∧ q.2 < n) (hacyclic : (ofPairs n pairs).Acyclic) (ha : a < n)
    (hb : b < n) (hab : a ≠ b) (hba : (ofPairs n pairs).holds b a = false) :
    ∃ l, IsSchedule n pairs l ∧ l.idxOf a < l.idxOf b := by
  obtain ⟨l, hl⟩ := exists_schedule (List.forall_mem_cons.mpr ⟨⟨ha, hb⟩, h⟩)
    (acyclic_ofPairs_cons (fun q hq => (h q hq).1) hacyclic ha hab hba)
  exact ⟨l, hl.of_cons, hl.forward _ List.mem_cons_self⟩

/-- Where all are comparable, a schedule is sorted by the relation. -/
theorem pairwise_of_isTotal (h : ∀ q ∈ pairs, q.1 < n) (htotal : (ofPairs n pairs).isTotal = true)
    (hl : IsSchedule n pairs l) : l.Pairwise fun a b => (ofPairs n pairs).holds a b = true := by
  obtain ⟨-, hne⟩ := isTotal_iff.mp htotal
  rw [size_ofPairs] at hne
  refine List.pairwise_iff_getElem.mpr fun i j hi hj hij => ?_
  have hlt : ∀ k (hk : k < l.length), l[k] < n := fun k hk => hl.mem_iff.mp (List.getElem_mem hk)
  rw [hne _ (hlt i hi) _ (hlt j hj) fun heq => absurd (hl.nodup.getElem_inj_iff.mp heq) (by omega),
    Bool.not_eq_true', ← Bool.not_eq_true, holds_ofPairs h]
  intro hji
  have hback := hl.lt_of_path hji
  rw [hl.nodup.idxOf_getElem, hl.nodup.idxOf_getElem] at hback
  omega

theorem eq_of_isTotal {l' : List Nat} (h : ∀ q ∈ pairs, q.1 < n) (htotal : (ofPairs n pairs).isTotal = true)
    (hl : IsSchedule n pairs l) (hl' : IsSchedule n pairs l') : l = l' := by
  refine (hl.perm.trans hl'.perm.symm).eq_of_pairwise (fun a b _ _ hab hba => ?_) (pairwise_of_isTotal h htotal hl)
    (pairwise_of_isTotal h htotal hl')
  have haa := transitive_ofPairs n pairs a b a hab hba
  rw [(isTotal_iff.mp htotal).1 a] at haa
  exact absurd haa Bool.false_ne_true

theorem acyclic_of_schedule (h : ∀ q ∈ pairs, q.1 < n) (hl : IsSchedule n pairs l) : (ofPairs n pairs).Acyclic := by
  intro i
  by_contra hi
  rw [Bool.not_eq_false, holds_ofPairs h] at hi
  exact lt_irrefl _ (hl.lt_of_path hi)

/-- There is a schedule unless the pairs go round in a circle, and there is one only if all numbers are comparable. -/
theorem isTotal_iff_unique_schedule (h : ∀ q ∈ pairs, q.1 < n ∧ q.2 < n) :
    ofPairs? n pairs = some (ofPairs n pairs) ∧
      ((ofPairs n pairs).Acyclic ↔ ∃ l, IsSchedule n pairs l) ∧
      ((ofPairs n pairs).isTotal = true ↔ ∃! l, IsSchedule n pairs l) := by
  have hfirst : ∀ q ∈ pairs, q.1 < n := fun q hq => (h q hq).1
  refine ⟨ofPairs?_eq h, ⟨exists_schedule h, fun ⟨l, hl⟩ => acyclic_of_schedule hfirst hl⟩, fun htotal => ?_, ?_⟩
  · obtain ⟨l, hl⟩ := exists_schedule h (isTotal_iff.mp htotal).1
    exact ⟨l, hl, fun l' hl' => eq_of_isTotal hfirst htotal hl' hl⟩
  · rintro ⟨l, hl, hunique⟩
    have hacyclic := acyclic_of_schedule hfirst hl
    refine isTotal_iff.mpr ⟨hacyclic, fun a ha b hb hab => ?_⟩
    rw [size_ofPairs] at ha hb
    cases hba : (ofPairs n pairs).holds b a with
    | true =>
        by_contra hboth
        have haa := transitive_ofPairs n pairs a b a (by simpa using hboth) hba
        rw [hacyclic a] at haa
        exact Bool.false_ne_true haa
    | false =>
        by_contra hneither
        obtain ⟨l₁, h₁, hlt⟩ := exists_schedule_before h hacyclic ha hb hab hba
        obtain ⟨l₂, h₂, hgt⟩ := exists_schedule_before h hacyclic hb ha hab.symm (by simpa using hneither)
        rw [hunique l₁ h₁] at hlt
        rw [hunique l₂ h₂] at hgt
        exact lt_asymm hlt hgt

/-- Two pairs that lead from the last number through the first to the middle one. -/
theorem isTotal_iff_unique_schedule_line :
    (∀ q ∈ [(2, 0), (0, 1)], q.1 < 3 ∧ q.2 < 3) ∧ (ofPairs 3 [(2, 0), (0, 1)]).isTotal = true ∧
      ∃! l, IsSchedule 3 [(2, 0), (0, 1)] l := by
  have hlt : ∀ q ∈ [(2, 0), (0, 1)], q.1 < 3 ∧ q.2 < 3 := by decide
  have htotal : (ofPairs 3 [(2, 0), (0, 1)]).isTotal = true := by decide
  exact ⟨hlt, htotal, (isTotal_iff_unique_schedule hlt).2.2.mp htotal⟩

end FinRel

end HtnPlanner
