import HtnPlanner.Reach
import Mathlib.Data.List.Nodup
import Mathlib.Data.List.Perm.Subperm
import Mathlib.Logic.Function.Iterate

/-!
The breadth first search finds a set that its successors do not leave, if its bound is right.
-/

namespace HtnPlanner

theorem nodup_eraseDups {α : Type} [BEq α] [LawfulBEq α] (l : List α) : l.eraseDups.Nodup := by
  induction h : l.length using Nat.strongRecOn generalizing l with
  | ind n ih =>
      cases l with
      | nil => simp
      | cons a l =>
          rw [List.eraseDups_cons, List.nodup_cons]
          refine ⟨by simp, ih _ ?_ _ rfl⟩
          rw [← h, List.length_cons]
          exact Nat.lt_succ_of_le (List.length_filter_le _ _)

variable {α : Type} [DecidableEq α] {next : α → List α}

/-- At the end, if it is not there yet. -/
def insertNew (l : List α) (a : α) : List α := if a ∈ l then l else l ++ [a]

theorem foldl_insertNew (as l : List α) : as.foldl insertNew l = l ++ (as.filter (· ∉ l)).eraseDups := by
  induction as generalizing l with
  | nil => simp
  | cons a as ih =>
      rw [List.foldl_cons, ih, insertNew]
      by_cases ha : a ∈ l
      · rw [if_pos ha, List.filter_cons_of_neg (by simpa using ha)]
      · have hrest : (as.filter (· ∉ l ++ [a])) = (as.filter (· ∉ l)).filter (fun b => !b == a) := by
          rw [List.filter_filter]
          refine List.filter_congr fun b _ => ?_
          by_cases hb : b = a <;> simp [hb]
        rw [if_neg ha, List.filter_cons_of_pos (by simpa using ha), List.eraseDups_cons, hrest, List.append_assoc]
        rfl

theorem foldl_insertNew_nil (as : List α) : as.foldl insertNew [] = as.eraseDups := by
  rw [foldl_insertNew, List.nil_append, List.filter_eq_self.mpr fun a _ => by simp]

/-- One round of the search, on the queue and on what was seen. -/
def reachStep (next : α → List α) : List α × List α → List α × List α
  | ([], seen) => ([], seen)
  | (a :: queue, seen) =>
    let fresh := ((next a).filter (· ∉ seen)).eraseDups
    (queue ++ fresh, seen ++ fresh)

theorem reachFrom_eq_iterate (fuel : Nat) (queue seen : List α) :
    reachFrom next fuel queue seen = ((reachStep next)^[fuel] (queue, seen)).2 := by
  induction fuel generalizing queue seen with
  | zero => rfl
  | succ fuel ih =>
      cases queue with
      | nil => rw [Function.iterate_fixed rfl, reachFrom]
      | cons a queue => rw [Function.iterate_succ_apply, reachFrom, ih, reachStep]

/-- What was seen is what was taken off the queue and what is on it, and what was taken off has its successors
among what was seen. -/
structure Explored (next : α → List α) (P : α → Prop) (start done : List α) (s : List α × List α) : Prop where
  started : start ⊆ s.2
  seen : s.2 = done ++ s.1
  nodup : s.2.Nodup
  sound : ∀ a ∈ s.2, P a
  closed : ∀ a ∈ done, ∀ b ∈ next a, b ∈ s.2

variable {P : α → Prop} {done start all : List α} {s : List α × List α} {bound : Nat}

theorem explored_start (hstart : ∀ a ∈ start, P a) :
    Explored next P start [] (start.eraseDups, start.eraseDups) :=
  ⟨fun _ ha => List.mem_eraseDups.mpr ha, rfl, nodup_eraseDups start,
    fun a ha => hstart a (List.mem_eraseDups.mp ha), by simp⟩

theorem Explored.step {a : α} {queue seen : List α} (h : Explored next P start done (a :: queue, seen))
    (hnext : ∀ a, P a → ∀ b ∈ next a, P b) :
    Explored next P start (done ++ [a]) (reachStep next (a :: queue, seen)) := by
  obtain ⟨hstarted, hseen, hnodup, hsound, hclosed⟩ := h
  obtain rfl : seen = done ++ a :: queue := hseen
  have hfresh : ∀ b, b ∈ ((next a).filter (· ∉ done ++ a :: queue)).eraseDups ↔
      b ∈ next a ∧ b ∉ done ++ a :: queue := by
    intro b
    rw [List.mem_eraseDups, List.mem_filter, decide_eq_true_eq]
  have hfreshNodup := nodup_eraseDups ((next a).filter (· ∉ done ++ a :: queue))
  rw [reachStep]
  generalize ((next a).filter (· ∉ done ++ a :: queue)).eraseDups = fresh at hfresh hfreshNodup
  refine ⟨fun b hb => List.mem_append_left _ (hstarted hb), by simp, ?_, fun b hb => ?_, fun c hc b hb => ?_⟩
  · exact List.nodup_append.mpr ⟨hnodup, hfreshNodup, fun b hb c hc hbc => ((hfresh c).mp hc).2 (hbc ▸ hb)⟩
  · rcases List.mem_append.mp hb with hb | hb
    · exact hsound b hb
    · exact hnext a (hsound a (by simp)) b ((hfresh b).mp hb).1
  · by_cases hseen : b ∈ done ++ a :: queue
    · exact List.mem_append_left _ hseen
    · rcases List.mem_append.mp hc with hc | hc
      · exact absurd (hclosed c hc b hb) hseen
      · rw [List.mem_singleton.mp hc] at hb
        exact List.mem_append_right _ ((hfresh b).mpr ⟨hb, hseen⟩)

/-- Each round takes one off the queue, unless there is none. -/
theorem Explored.iterate (h : Explored next P start [] s) (hnext : ∀ a, P a → ∀ b ∈ next a, P b) (n : Nat) :
    ∃ done, Explored next P start done ((reachStep next)^[n] s) ∧
      (((reachStep next)^[n] s).1 = [] ∨ done.length = n) := by
  induction n with
  | zero => exact ⟨[], h, Or.inr rfl⟩
  | succ n ih =>
      obtain ⟨done, hdone, hlength⟩ := ih
      rw [Function.iterate_succ_apply']
      generalize (reachStep next)^[n] s = t at hdone hlength
      obtain ⟨queue, seen⟩ := t
      cases queue with
      | nil => exact ⟨done, hdone, Or.inl rfl⟩
      | cons a queue =>
          have hlength : done.length = n := hlength.resolve_left (by simp)
          exact ⟨done ++ [a], hdone.step hnext, Or.inr (by rw [List.length_append, hlength, List.length_singleton])⟩

theorem reach_eq_iterate : reach next bound start = ((reachStep next)^[bound] (start.eraseDups, start.eraseDups)).2 :=
  reachFrom_eq_iterate _ _ _

/-- Whatever is true at the start and passed on to successors is true of all that is found. -/
theorem of_mem_reach (hstart : ∀ a ∈ start, P a) (hnext : ∀ a, P a → ∀ b ∈ next a, P b) :
    ∀ a ∈ reach next bound start, P a := by
  obtain ⟨done, h, -⟩ := (explored_start hstart).iterate hnext bound
  rw [reach_eq_iterate]
  exact h.sound

theorem nodup_reach (next : α → List α) (bound : Nat) (start : List α) : (reach next bound start).Nodup := by
  have hexplored : Explored next (fun _ => True) start [] (start.eraseDups, start.eraseDups) :=
    explored_start fun _ _ => trivial
  obtain ⟨done, h, -⟩ := hexplored.iterate (fun _ _ _ _ => trivial) bound
  rw [reach_eq_iterate]
  exact h.nodup

theorem subset_reach : start ⊆ reach next bound start := by
  have hexplored : Explored next (fun _ => True) start [] (start.eraseDups, start.eraseDups) :=
    explored_start fun _ _ => trivial
  obtain ⟨done, h, -⟩ := hexplored.iterate (fun _ _ _ _ => trivial) bound
  rw [reach_eq_iterate]
  exact h.started

/-- Where everything that comes up is on a list no longer than the bound, nothing is left on the queue. -/
theorem reach_drained (hstart : start ⊆ all) (hnext : ∀ a ∈ all, ∀ b ∈ next a, b ∈ all) (hbound : all.length ≤ bound) :
    (reachStep next)^[bound] (start.eraseDups, start.eraseDups) = ([], reach next bound start) := by
  obtain ⟨done, h, hlength⟩ := (explored_start (P := (· ∈ all)) hstart).iterate hnext bound
  refine Prod.ext ?_ reach_eq_iterate.symm
  rcases hlength with hempty | hlength
  · exact hempty
  · have hall := (List.subperm_of_subset h.nodup h.sound).length_le
    rw [h.seen, List.length_append] at hall
    exact List.eq_nil_of_length_eq_zero (by omega)

/-- Then nothing is missed. -/
theorem reach_spec (hstart : start ⊆ all) (hnext : ∀ a ∈ all, ∀ b ∈ next a, b ∈ all) (hbound : all.length ≤ bound) :
    start ⊆ reach next bound start ∧ reach next bound start ⊆ all ∧
      ∀ a ∈ reach next bound start, ∀ b ∈ next a, b ∈ reach next bound start := by
  obtain ⟨done, h, -⟩ := (explored_start (P := (· ∈ all)) hstart).iterate hnext bound
  rw [reach_drained hstart hnext hbound] at h
  have hdone : reach next bound start = done := h.seen.trans (List.append_nil done)
  exact ⟨h.started, h.sound, fun a ha => h.closed a (hdone ▸ ha)⟩

end HtnPlanner
