import HtnPlanner.Proofs.Order.Acyclic

/-!
Numbers that are put in the place of another one are related to those that are kept as it was. The pairs that say so
are closed before the closing pass, which adds none to them, and the tasks of a network stay with their positions.
-/

namespace HtnPlanner

namespace FinRel

variable {r inner : FinRel} {t i j : Nat}

/-- In `q` the numbers of `r` but `t` come first and are related as in `r`, those of `inner` follow and are related as
in `inner`, and each of these has the predecessors and the successors of `t`. -/
structure Replaces (r : FinRel) (t : Nat) (inner q : FinRel) : Prop where
  size : q.size = r.size - 1 + inner.size
  kept : ∀ i < r.size - 1, ∀ j < r.size - 1, q.holds i j = r.holds (skip t i) (skip t j)
  inserted : ∀ i < inner.size, ∀ j < inner.size, q.holds (r.size - 1 + i) (r.size - 1 + j) = inner.holds i j
  before : ∀ i < r.size - 1, ∀ j < inner.size, q.holds i (r.size - 1 + j) = r.holds (skip t i) t
  after : ∀ i < inner.size, ∀ j < r.size - 1, q.holds (r.size - 1 + i) j = r.holds t (skip t j)

theorem spliced_kept (hi : i < r.size - 1) (hj : j < r.size - 1) :
    r.spliced t inner i j = r.holds (skip t i) (skip t j) := by
  rw [spliced, decide_eq_true hi, decide_eq_true hj]

theorem spliced_before (hi : i < r.size - 1) : r.spliced t inner i (r.size - 1 + j) = r.holds (skip t i) t := by
  rw [spliced, decide_eq_true hi, decide_eq_false (Nat.not_lt.mpr (Nat.le_add_right ..))]

theorem spliced_after (hj : j < r.size - 1) : r.spliced t inner (r.size - 1 + i) j = r.holds t (skip t j) := by
  rw [spliced, decide_eq_true hj, decide_eq_false (Nat.not_lt.mpr (Nat.le_add_right ..))]

theorem spliced_inserted : r.spliced t inner (r.size - 1 + i) (r.size - 1 + j) = inner.holds i j := by
  rw [spliced, decide_eq_false (Nat.not_lt.mpr (Nat.le_add_right ..)),
    decide_eq_false (Nat.not_lt.mpr (Nat.le_add_right ..)), Nat.add_sub_cancel_left, Nat.add_sub_cancel_left]

theorem replaces_splice (hr : r.Transitive) (hinner : inner.Transitive) (ht : r.holds t t = false) :
    r.Replaces t inner (r.splice t inner) where
  size := size_splice r t inner
  kept i hi j hj := by rw [holds_splice hr hinner ht (by omega) (by omega), spliced_kept hi hj]
  inserted i hi j hj := by rw [holds_splice hr hinner ht (by omega) (by omega), spliced_inserted]
  before i hi j hj := by rw [holds_splice hr hinner ht (by omega) (by omega), spliced_before hi]
  after i hi j hj := by rw [holds_splice hr hinner ht (by omega) (by omega), spliced_after hj]

/-- The numbers that are kept, in their order. -/
theorem eraseIdx_range (ht : t < r.size) : (List.range r.size).eraseIdx t = (List.range (r.size - 1)).map (skip t) := by
  apply List.ext_getElem?
  intro i
  rw [getElem?_eraseIdx_eq, List.getElem?_map]
  by_cases hi : i < r.size - 1
  · rw [List.getElem?_range (skip_lt hi), List.getElem?_range hi, Option.map_some]
  · have hskip : r.size ≤ skip t i := by
      rw [skip, if_neg (by omega)]
      omega
    simp [hi, hskip]

/-! ### Before the closing pass -/

/-- For each number but `t`: it comes before the inserted ones if it comes before `t`, and after them if it comes after
`t`. -/
def besidePairs (r : FinRel) (t count : Nat) : List (Nat × Nat) :=
  ((List.range r.size).filter (· != t)).flatMap fun other => (List.range count).flatMap fun k =>
    (if r.holds other t then [(unskip t other, r.size - 1 + k)] else []) ++
    (if r.holds t other then [(r.size - 1 + k, unskip t other)] else [])

/-- The pairs that are put together: those among the numbers that are kept, those of `inner`, and those between the
ones and the others. -/
def splicePairs (r : FinRel) (t : Nat) (inner : FinRel) : List (Nat × Nat) :=
  (r.erase t).pairs ++ inner.pairs.map (fun q => (r.size - 1 + q.1, r.size - 1 + q.2)) ++ r.besidePairs t inner.size

theorem exists_unskip_eq_iff {n : Nat} (ht : t < n) {P : Nat → Prop} :
    (∃ other, (other < n ∧ other ≠ t) ∧ P other ∧ unskip t other = i) ↔ i < n - 1 ∧ P (skip t i) := by
  constructor
  · rintro ⟨other, ⟨hlt, hne⟩, h, rfl⟩
    rw [← (unskip_eq_iff hne).mp rfl]
    exact ⟨unskip_lt hlt ht hne, h⟩
  · rintro ⟨hi, h⟩
    exact ⟨skip t i, ⟨skip_lt hi, skip_ne t i⟩, h, (unskip_eq_iff (skip_ne t i)).mpr rfl⟩

theorem mem_besidePairs {count : Nat} (ht : t < r.size) : (i, j) ∈ r.besidePairs t count ↔
    (∃ k < count, (i < r.size - 1 ∧ r.holds (skip t i) t = true) ∧ r.size - 1 + k = j) ∨
      ∃ k < count, (j < r.size - 1 ∧ r.holds t (skip t j) = true) ∧ r.size - 1 + k = i := by
  rw [← exists_unskip_eq_iff ht (P := fun other => r.holds other t = true),
    ← exists_unskip_eq_iff ht (P := fun other => r.holds t other = true)]
  simp only [besidePairs, List.mem_flatMap, List.mem_filter, List.mem_range, bne_iff_ne,
    List.mem_append, List.mem_ite_nil_right, List.mem_singleton, Prod.mk.injEq]
  constructor
  · rintro ⟨other, hother, k, hk, ⟨h, rfl, rfl⟩ | ⟨h, rfl, rfl⟩⟩
    · exact Or.inl ⟨k, hk, ⟨other, hother, h, rfl⟩, rfl⟩
    · exact Or.inr ⟨k, hk, ⟨other, hother, h, rfl⟩, rfl⟩
  · rintro (⟨k, hk, ⟨other, hother, h, rfl⟩, rfl⟩ | ⟨k, hk, ⟨other, hother, h, rfl⟩, rfl⟩)
    · exact ⟨other, hother, k, hk, Or.inl ⟨h, rfl, rfl⟩⟩
    · exact ⟨other, hother, k, hk, Or.inr ⟨h, rfl, rfl⟩⟩

theorem mem_splicePairs (ht : t < r.size) : (i, j) ∈ r.splicePairs t inner ↔
    i < r.size - 1 + inner.size ∧ j < r.size - 1 + inner.size ∧ r.spliced t inner i j = true := by
  simp only [splicePairs, List.mem_append, List.mem_map, Prod.exists, Prod.mk.injEq, mem_pairs, mem_besidePairs ht,
    erase, holds_ofPred, size_ofPred, Bool.and_eq_true, decide_eq_true_eq]
  rcases Nat.lt_or_ge i (r.size - 1) with hi | hi <;> rcases Nat.lt_or_ge j (r.size - 1) with hj | hj
  · rw [spliced_kept hi hj]
    grind
  · obtain ⟨j, rfl⟩ := Nat.exists_eq_add_of_le hj
    rw [spliced_before hi]
    grind
  · obtain ⟨i, rfl⟩ := Nat.exists_eq_add_of_le hi
    rw [spliced_after hj]
    grind
  · obtain ⟨i, rfl⟩ := Nat.exists_eq_add_of_le hi
    obtain ⟨j, rfl⟩ := Nat.exists_eq_add_of_le hj
    rw [spliced_inserted]
    have hsize : inner.holds i j = true → i < inner.size := lt_size_of_holds
    grind

theorem addAll_splicePairs (ht : t < r.size) : (empty (r.size - 1 + inner.size)).addAll (r.splicePairs t inner) =
    ofPred (r.size - 1 + inner.size) (r.spliced t inner) := by
  have hlt : ∀ p ∈ r.splicePairs t inner, p.1 < (empty (r.size - 1 + inner.size)).size := by
    intro p hp
    rw [size_empty]
    exact ((mem_splicePairs ht).mp hp).1
  refine ext (by simp) fun i j => Bool.eq_iff_iff.mpr ?_
  rw [holds_addAll _ _ hlt, mem_splicePairs ht]
  simp

/-- The pairs are put together and then closed. -/
theorem splice_eq_ofPairs (ht : t < r.size) (inner : FinRel) :
    r.splice t inner = ofPairs (r.size - 1 + inner.size) (r.splicePairs t inner) := by
  rw [ofPairs, addAll_splicePairs ht]
  rfl

end FinRel

/-! ### The tasks of a network -/

namespace TaskNetwork

variable {n : TaskNetwork} {t : Nat} {subtasks : List Nat} {inner : FinRel}

/-- In `m` the tasks of `n` but the one at `t` come first and the subtasks follow, each at its position in the order. -/
structure Replaces (n : TaskNetwork) (t : Nat) (subtasks : List Nat) (inner : FinRel) (m : TaskNetwork) : Prop where
  order : n.order.Replaces t inner m.order
  size : m.tasks.length = m.order.size
  kept : ∀ i < n.order.size - 1, m.tasks[i]? = n.tasks[FinRel.skip t i]?
  inserted : ∀ k < inner.size, m.tasks[n.order.size - 1 + k]? = subtasks[k]?

theorem replaces_decompose (h : n.order.Replaces t inner (n.order.splice t inner)) (ht : t < n.order.size)
    (hsize : n.tasks.length = n.order.size) (hinner : subtasks.length = inner.size) :
    n.Replaces t subtasks inner (n.decompose t subtasks inner) := by
  have hkept : (n.tasks.eraseIdx t).length = n.order.size - 1 := by
    rw [List.length_eraseIdx_of_lt (by omega), hsize]
  refine ⟨h, ?_, fun i hi => ?_, fun k _ => ?_⟩
  · rw [decompose, List.length_append, hkept, hinner, FinRel.size_splice]
  · rw [decompose, List.getElem?_append_left (by omega), FinRel.getElem?_eraseIdx_eq]
  · rw [decompose, List.getElem?_append_right (by omega), hkept, Nat.add_sub_cancel_left]

end TaskNetwork

namespace FinRel

variable {r inner : FinRel} {t : Nat}

/-- Between closed relations, and where `t` does not precede itself, `splice` is the order that is inherited and no
more: the pairs it puts together are closed as they are. The tasks of a network are numbered alike. -/
theorem splice_inherits_order (hr : r.Transitive) (hinner : inner.Transitive) (ht : t < r.size)
    (hself : r.holds t t = false) :
    r.splice? t inner = some (r.splice t inner) ∧ r.Replaces t inner (r.splice t inner) ∧
      (List.range r.size).eraseIdx t = (List.range (r.size - 1)).map (skip t) ∧
      r.splice t inner = ofPairs (r.size - 1 + inner.size) (r.splicePairs t inner) ∧
      r.splice t inner = (empty (r.size - 1 + inner.size)).addAll (r.splicePairs t inner) ∧
      (r.splice t inner).Transitive ∧ (r.Acyclic → inner.Acyclic → (r.splice t inner).Acyclic) ∧
      ∀ (n : TaskNetwork) (subtasks : List Nat), n.order = r → n.tasks.length = r.size →
        subtasks.length = inner.size → ∃ m, n.decompose? t subtasks inner = some m ∧
          m.order = r.splice t inner ∧ n.Replaces t subtasks inner m := by
  have hreplaces := replaces_splice hr hinner hself
  refine ⟨splice?_eq ht inner, hreplaces, eraseIdx_range ht, splice_eq_ofPairs ht inner, ?_,
    transitive_splice r t inner, fun h hacyclic => h.splice hr hacyclic hinner t, ?_⟩
  · rw [addAll_splicePairs ht, splice_eq_ofPred hr hinner hself]
  · rintro n subtasks rfl hsize hsubtasks
    exact ⟨_, if_pos (by omega), rfl, TaskNetwork.replaces_decompose hreplaces ht hsize hsubtasks⟩

/-- Two numbers in the place of the middle one of a chain. -/
theorem splice_inherits_order_chain :
    let r := chain 3
    let inner := ofPairs 2 [(1, 0)]
    r.Transitive ∧ inner.Transitive ∧ 1 < r.size ∧ r.holds 1 1 = false ∧
      r.splice? 1 inner = some (r.splice 1 inner) ∧
      (r.splice 1 inner).pairs = [(0, 1), (0, 2), (0, 3), (2, 1), (3, 1), (3, 2)] ∧
      ∃ m, TaskNetwork.decompose? ⟨[5, 6, 7], r⟩ 1 [8, 9] inner = some m ∧ m.tasks[1]? = some 7 ∧
        m.tasks[3]? = some 9 := by
  have hr := transitive_ofPairs 3 ((List.range 2).map fun i => (i, i + 1))
  have hinner := transitive_ofPairs 2 [(1, 0)]
  have hself : (chain 3).holds 1 1 = false := by decide
  obtain ⟨hsplice, -, -, -, -, -, -, hnetwork⟩ := splice_inherits_order (t := 1) hr hinner (by decide) hself
  obtain ⟨m, hm, -, hreplaces⟩ := hnetwork ⟨[5, 6, 7], chain 3⟩ [8, 9] rfl (by decide) (by decide)
  exact ⟨hr, hinner, by decide, hself, hsplice, by decide +kernel, m, hm, hreplaces.kept 1 (by decide),
    hreplaces.inserted 1 (by decide)⟩

end FinRel

end HtnPlanner
