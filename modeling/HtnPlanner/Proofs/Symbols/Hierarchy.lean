import HtnPlanner.Proofs.Order.Closure
import HtnPlanner.Proofs.Symbols.Domains
import Mathlib.Data.List.Basic

/-!
The subtypes of a type are the types that a way up leads from. Walks with a stack find the same: one that looks for
a type and stops there, and one that goes all the way and puts down what it came by. Both end on any hierarchy,
with cycles or without.
-/

namespace HtnPlanner.Symbols

open Relation

variable {s : Symbols} {t sup a b : Nat} {stack visited : List Nat}

/-- One type is below another if there is a way up the supertypes. -/
def Below (s : Symbols) : Nat → Nat → Prop := ReflTransGen fun a b => b ∈ s.supertypes a

theorem isSubtype_iff : s.isSubtype a b = true ↔ s.Below a b := by
  have hstep : ∀ a b, (⟨s.types.map fun t => IndexSet.ofList t.supertypes⟩ : FinRel).holds a b = true ↔
      b ∈ s.supertypes a := by
    intro a b
    simp only [FinRel.holds, FinRel.row, supertypes, List.getD_eq_getElem?_getD, List.getElem?_map]
    cases s.types[a]? <;> simp
  rw [isSubtype, Bool.or_eq_true, beq_iff_eq, ancestors, FinRel.holds_close, Below,
    reflTransGen_iff_eq_or_transGen, eq_comm]
  simp only [hstep]

theorem isOfType_of_isSubtype {c : Nat} (hab : s.isSubtype a b = true) (hc : s.isOfType c a = true) :
    s.isOfType c b = true := by
  rw [isOfType, Option.any_eq_true] at hc ⊢
  obtain ⟨t, ht, hta⟩ := hc
  exact ⟨t, ht, isSubtype_iff.mpr ((isSubtype_iff.mp hta).trans (isSubtype_iff.mp hab))⟩

/-! ### Walks -/

/-- One number fewer is left to look at after a new one. -/
theorem length_unseen_lt {n : Nat} (ht : t < n) (hvisited : t ∉ visited) :
    ((List.range n).filter (· ∉ t :: visited)).length < ((List.range n).filter (· ∉ visited)).length := by
  have hsub : (List.range n).filter (· ∉ t :: visited) = ((List.range n).filter (· ∉ visited)).filter (· ≠ t) := by
    rw [List.filter_filter]
    refine List.filter_congr fun u _ => ?_
    simp [not_or]
  rw [hsub]
  refine List.length_filter_lt_length_iff_exists.mpr ⟨t, ?_, by simp⟩
  rw [List.mem_filter, List.mem_range, decide_eq_true_iff]
  exact ⟨ht, hvisited⟩

def unvisited (s : Symbols) (visited : List Nat) : List Nat :=
  (List.range s.types.length).filter (· ∉ visited)

theorem length_unvisited_lt (ht : t < s.types.length) (hvisited : t ∉ visited) :
    (s.unvisited (t :: visited)).length < (s.unvisited visited).length :=
  length_unseen_lt ht hvisited

/-- To look at a new type leaves fewer to look at. Only a number that is no type's does not count, and above that
there is nothing. -/
theorem visit_decreases (stack : List Nat) (hvisited : t ∉ visited) :
    Prod.Lex (· < ·) (· < ·)
      ((s.unvisited (t :: visited)).length, ((s.supertypes t).reverse ++ stack).length)
      ((s.unvisited visited).length, (t :: stack).length) := by
  by_cases ht : t < s.types.length
  · exact .left _ _ (length_unvisited_lt ht hvisited)
  · have hnone : s.supertypes t = [] := by simp [supertypes, ht]
    have hsame : s.unvisited (t :: visited) = s.unvisited visited := by
      refine List.filter_congr fun u hu => ?_
      have hne : u ≠ t := fun h => ht (h ▸ List.mem_range.mp hu)
      simp [hne]
    rw [hnone, hsame]
    exact .right _ (by simp)

/-- Whether a walk from the types on the stack comes to `sup`. -/
def climbsTo (s : Symbols) (sup : Nat) : List Nat → List Nat → Bool
  | [], _ => false
  | t :: stack, visited =>
    if t = sup then true
    else if t ∈ visited then s.climbsTo sup stack visited
    else s.climbsTo sup ((s.supertypes t).reverse ++ stack) (t :: visited)
termination_by stack visited => ((s.unvisited visited).length, stack.length)
decreasing_by
  · exact .right _ (by simp)
  · exact visit_decreases stack ‹_›

/-- The types that a walk from the types on the stack comes by, after those that were visited. -/
def climb (s : Symbols) : List Nat → List Nat → List Nat
  | [], visited => visited
  | t :: stack, visited =>
    if t ∈ visited then s.climb stack visited
    else s.climb ((s.supertypes t).reverse ++ stack) (t :: visited)
termination_by stack visited => ((s.unvisited visited).length, stack.length)
decreasing_by
  · exact .right _ (by simp)
  · exact visit_decreases stack ‹_›

/-- The way up from a visited type leads over the stack, unless all of it was visited. -/
def Bounded (s : Symbols) (stack visited : List Nat) : Prop :=
  ∀ v ∈ visited, ∀ u ∈ s.supertypes v, u ∈ visited ∨ u ∈ stack

theorem Bounded.skip (h : s.Bounded (t :: stack) visited) (ht : t ∈ visited) : s.Bounded stack visited := by
  intro v hv u hu
  rcases h v hv u hu with hu | hu
  · exact Or.inl hu
  · rcases List.mem_cons.mp hu with rfl | hu
    · exact Or.inl ht
    · exact Or.inr hu

theorem Bounded.visit (h : s.Bounded (t :: stack) visited) :
    s.Bounded ((s.supertypes t).reverse ++ stack) (t :: visited) := by
  intro v hv u hu
  rcases List.mem_cons.mp hv with rfl | hv
  · exact Or.inr (by simp [hu])
  · rcases h v hv u hu with hu | hu
    · exact Or.inl (List.mem_cons_of_mem t hu)
    · rcases List.mem_cons.mp hu with rfl | hu
      · exact Or.inl List.mem_cons_self
      · exact Or.inr (List.mem_append_right _ hu)

theorem Bounded.below (h : s.Bounded stack visited) {v : Nat} (hv : v ∈ visited) (hb : s.Below v b) :
    b ∈ visited ∨ ∃ u ∈ stack, s.Below u b := by
  induction hb using ReflTransGen.head_induction_on with
  | refl => exact Or.inl hv
  | head hu hb ih =>
      rcases h _ hv _ hu with hvisited | hstack
      · exact ih hvisited
      · exact Or.inr ⟨_, hstack, hb⟩

/-- What is above a type is the type or above one of its supertypes. -/
theorem exists_visit_iff : (∃ u ∈ (s.supertypes t).reverse ++ stack, s.Below u b) ∨ t = b ↔
    ∃ u ∈ t :: stack, s.Below u b := by
  have hcases : s.Below t b ↔ (∃ u ∈ s.supertypes t, s.Below u b) ∨ t = b :=
    ⟨fun h => h.cases_head.symm, fun h => h.elim (fun ⟨u, hu, hb⟩ => .head hu hb) fun h => h ▸ .refl⟩
  simp only [List.mem_append, List.mem_reverse, List.mem_cons, or_and_right, exists_or, exists_eq_left,
    hcases]
  exact or_right_comm

theorem climbsTo_iff (h : s.Bounded stack visited) (hsup : sup ∉ visited) :
    s.climbsTo sup stack visited = true ↔ ∃ u ∈ stack, s.Below u sup := by
  fun_induction climbsTo s sup stack visited with
  | case1 visited => simp
  | case2 stack visited => exact iff_of_true rfl (exists_visit_iff.mp (Or.inr rfl))
  | case3 t stack visited hne ht ih =>
      rw [ih (h.skip ht) hsup, List.exists_mem_cons_iff, iff_or_self]
      exact fun hb => ((h.skip ht).below ht hb).resolve_left hsup
  | case4 t stack visited hne ht ih =>
      rw [ih h.visit (by simp [hsup, Ne.symm hne]), ← exists_visit_iff, or_iff_left hne]

theorem mem_climb_iff (h : s.Bounded stack visited) :
    b ∈ s.climb stack visited ↔ b ∈ visited ∨ ∃ u ∈ stack, s.Below u b := by
  fun_induction climb s stack visited with
  | case1 visited => simp
  | case2 t stack visited ht ih =>
      rw [ih (h.skip ht), List.exists_mem_cons_iff, or_left_comm, iff_or_self]
      exact fun hb => (h.skip ht).below ht hb
  | case3 t stack visited ht ih =>
      rw [ih h.visit, ← exists_visit_iff, List.mem_cons, eq_comm (a := b), or_comm (a := t = b), or_assoc,
        or_comm (a := t = b)]

theorem bounded_start (s : Symbols) (t : Nat) : s.Bounded [t] [] := fun _ hv => absurd hv List.not_mem_nil

theorem climbsTo_eq_isSubtype (s : Symbols) (a b : Nat) : s.climbsTo b [a] [] = s.isSubtype a b := by
  rw [Bool.eq_iff_iff, climbsTo_iff (bounded_start s a) List.not_mem_nil, isSubtype_iff]
  simp

theorem mem_climb_iff_isSubtype : b ∈ s.climb [a] [] ↔ s.isSubtype a b = true := by
  rw [mem_climb_iff (bounded_start s a), isSubtype_iff]
  simp

theorem mem_domain_close_iff (ht : t < s.types.length) {c : Nat} :
    c ∈ s.close.domain t ↔ s.isOfType c t = true := by
  have hclosed : t < s.close.types.length := by simpa [close] using ht
  have hsame : s.close.isOfType c t = s.isOfType c t := by
    simp only [isOfType, isSubtype, ancestors_close]
    rfl
  rw [(settled_close (Nat.zero_lt_of_lt ht)).domains t hclosed, hsame]

/-- A walk up from the type of a constant comes by the types whose domains have it. -/
theorem mem_domain_close_iff_climb (ht : t < s.types.length) {c : Nat} :
    c ∈ s.close.domain t ↔ ∃ u, s.constants.definition? c = some u ∧ t ∈ s.climb [u] [] := by
  rw [mem_domain_close_iff ht, isOfType, Option.any_eq_true]
  simp only [mem_climb_iff_isSubtype]

end HtnPlanner.Symbols
