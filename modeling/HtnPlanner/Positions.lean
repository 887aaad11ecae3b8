namespace HtnPlanner

/-- The positions of the members that satisfy `p`, ascending. -/
def positions (p : α → Bool) (l : List α) : List Nat := (l.zipIdx.filter (p ·.1)).map (·.2)

theorem mem_positions {p : α → Bool} {l : List α} {i : Nat} :
    i ∈ positions p l ↔ ∃ a, l[i]? = some a ∧ p a = true := by
  simp [positions, List.mem_zipIdx_iff_getElem?, and_comm]

theorem positions_map (p : β → Bool) (f : α → β) (l : List α) : positions p (l.map f) = positions (p ∘ f) l := by
  rw [positions, positions, List.zipIdx_map, List.filter_map, List.map_map]
  rfl

theorem pairwise_positions (q : α → Bool) (l : List α) : (positions q l).Pairwise (· < ·) := by
  rw [positions, List.pairwise_map]
  refine List.Pairwise.filter _ ?_
  rw [← List.pairwise_map (f := Prod.snd) (R := (· < ·)), List.zipIdx_map_snd]
  exact List.pairwise_lt_range'

theorem positions_concat (p : α → Bool) (l : List α) (a : α) :
    positions p (l ++ [a]) = positions p l ++ if p a then [l.length] else [] := by
  rw [positions, List.zipIdx_append, List.filter_append, List.map_append, ← positions]
  cases h : p a <;> simp [h]

/-- The members that satisfy `p` are those at the positions. -/
theorem map_getElem?_positions (p : α → Bool) (l : List α) :
    (positions p l).map (l[·]?) = (l.filter p).map some := by
  have hmem : ∀ q ∈ l.zipIdx.filter (p ·.1), l[q.2]? = some q.1 := fun q hq =>
    List.mem_zipIdx_iff_getElem?.mp (List.mem_filter.mp hq).1
  have hfst : l.filter p = (l.zipIdx.filter (p ·.1)).map Prod.fst := by
    conv => lhs; rw [← List.zipIdx_map_fst 0 l, List.filter_map]
    rfl
  rw [positions, List.map_map, hfst, List.map_map]
  exact List.map_congr_left hmem

theorem length_positions (q : α → Bool) (l : List α) : (positions q l).length = l.countP q := by
  have hcount : ∀ k : Nat, ((l.zipIdx k).filter (q ·.1)).length = l.countP q := by
    induction l with
    | nil => exact fun k => rfl
    | cons a l ih =>
        intro k
        rw [List.zipIdx_cons, List.filter_cons, List.countP_cons]
        split <;> simp_all
  rw [positions, List.length_map, hcount]

end HtnPlanner
