import HtnPlanner.Proofs.Grounding
import HtnPlanner.Proofs.Search.Progress
import Mathlib.Data.Set.Finite.Basic
import Mathlib.Data.Set.Card

/-!
Both engines answer rightly, and where finitely many situations can be reached they answer.
-/

namespace HtnPlanner

open SearchSpace

/-- The first `k` nodes have `k` situations. -/
theorem SearchSpace.Indexed.le_ncard {space : SearchSpace} (h : space.Indexed) {k : Nat}
    (hk : k ≤ space.nodes.size) {S : Set Situation}
    (hmem : ∀ id n, space.nodes[id]? = some n → id < k → n.situation ∈ S) (hfin : S.Finite) : k ≤ S.ncard := by
  have hmaps : ∀ id ∈ ↑(Finset.range k), space.situation id ∈ S := by
    intro id hid
    have hlt := Finset.mem_range.mp hid
    have hn := Array.getElem?_eq_getElem (hlt.trans_le hk)
    rw [situation_eq hn]
    exact hmem id _ hn hlt
  have hinj : Set.InjOn space.situation (↑(Finset.range k)) := fun i hi j hj hij =>
    h.situation_inj ((Finset.mem_range.mp hi).trans_le hk) ((Finset.mem_range.mp hj).trans_le hk) hij
  have hcard := Set.ncard_le_ncard_of_injOn _ hmaps hinj hfin
  rwa [Set.ncard_coe_finset, Finset.card_range] at hcard

namespace EncodedProblem

variable {p : EncodedProblem} {s : Situation} {bound : Nat}

/-- The situations that can be reached, if there are not more than `bound`. -/
def situations (p : EncodedProblem) (bound : Nat) : List Situation :=
  reach (fun s => (p.successors s).map (·.situation)) bound [p.initial]

/-- Whatever is found can be reached, and where no successor leads on to anything else it is all. -/
theorem mem_situations_iff
    (hclosed : ∀ s ∈ p.situations bound, ∀ c ∈ p.successors s, c.situation ∈ p.situations bound) :
    s ∈ p.situations bound ↔ p.Reachable s := by
  constructor
  · refine of_mem_reach (fun t ht => ?_) (fun t ht u hu => ?_) s
    · rw [List.mem_singleton.mp ht]
      exact reachable_initial
    · obtain ⟨c, hc, rfl⟩ := List.mem_map.mp hu
      exact ht.successor hc
  · rintro ⟨os, hrun⟩
    exact hrun.preserves (subset_reach List.mem_cons_self) fun t o u ht hu => hclosed t ht _ hu

end EncodedProblem

/-- What an outcome says of the problem is so. -/
def Outcome.Right (p : EncodedProblem) : Outcome → Prop
  | .success plan => ∃ s, p.Run p.initial plan.steps s ∧ p.isGoal s = true
  | .unsolvable => p.unsolvable?.isSome = true ∨ ∀ s, p.Reachable s → p.isGoal s = false
  | .exceeded _ => True

/-- The outcome says whether a plan can be found, and it says so rightly. -/
def Outcome.Decides (p : EncodedProblem) (outcome : Outcome) : Prop :=
  (outcome = .unsolvable ∨ ∃ plan, outcome = .success plan) ∧
    ((∃ plan, outcome = .success plan) ↔ p.unsolvable?.isSome = false ∧ ∃ s, p.Reachable s ∧ p.isGoal s = true)

/-- A node that is not in the frontier was expanded. Depth first such a node was tested for the goal,
breadth first every node was. -/
structure Search.Invariant (e : Engine) (p : EncodedProblem) (s : Search) : Prop where
  forest : Forest p s.space
  frontier : ∀ id ∈ s.frontier, id < s.space.nodes.size
  expanded : ∀ {id : Nat} {n : Node}, s.space.nodes[id]? = some n → id ∉ s.frontier →
    ∀ c ∈ p.successors n.situation, s.space.Stored c.situation
  tested : ∀ {id : Nat} {n : Node}, s.space.nodes[id]? = some n →
    id ∉ s.frontier ∨ e = .breadthFirst → p.isGoal n.situation = false

namespace Search

variable {e : Engine} {p : EncodedProblem} {r s t : Search} {id : Nat} {rest children : List Nat} {n : Node}

theorem Invariant.node (h : Invariant e p s) (hf : s.frontier = id :: rest) :
    ∃ n : Node, s.space.nodes[id]? = some n :=
  ⟨_, Array.getElem?_eq_getElem (h.frontier id (by simp [hf]))⟩

theorem Invariant.expand (h : Invariant e p s) (hf : s.frontier = id :: rest)
    (hn : s.space.nodes[id]? = some n) (hgoal : p.isGoal n.situation = false)
    (hforest : Forest p t.space) (hspace : r.space = s.space) (hgrows : Grows r t children)
    (hstored : ∀ c ∈ p.successors n.situation, t.space.Stored c.situation)
    (hnew : e = .breadthFirst → ∀ j ∈ children, ∀ m : Node, t.space.nodes[j]? = some m →
      p.isGoal m.situation = false)
    {f : List Nat} (hmem : ∀ j, j ∈ f ↔ j ∈ children ∨ j ∈ rest) :
    Invariant e p { t with frontier := f } := by
  have hkept : ∀ {j : Nat} {m : Node}, s.space.nodes[j]? = some m → t.space.nodes[j]? = some m :=
    fun hm => hgrows.kept (hspace ▸ hm)
  have hold : ∀ {j : Nat} {m : Node}, t.space.nodes[j]? = some m → j ∉ children →
      s.space.nodes[j]? = some m := by
    intro j m hm hj
    have hlt : j < s.space.nodes.size := by
      have hjt := lt_size_of_getElem? hm
      by_contra hge
      exact hj (hgrows.mem.mpr ⟨by rw [hspace]; omega, hjt⟩)
    rw [← hm, Array.getElem?_eq_getElem hlt]
    exact (hkept (Array.getElem?_eq_getElem hlt)).symm
  refine ⟨hforest, fun j hj => ?_, fun {j m} hm hj => ?_, fun {j m} hm hj => ?_⟩
  · rcases (hmem j).mp hj with hj | hj
    · exact (hgrows.mem.mp hj).2
    · have hlt := h.frontier j (by simp [hf, hj])
      show j < t.space.nodes.size
      rw [hgrows.size, hspace]
      exact Nat.lt_add_right _ hlt
  · have hj' : j ∉ children ∧ j ∉ rest := by simpa [hmem] using hj
    have hms := hold hm hj'.1
    by_cases hid : j = id
    · subst hid
      obtain rfl : m = n := Option.some.inj (hms.symm.trans hn)
      exact hstored
    · intro c hc
      exact hgrows.stored (hspace ▸ h.expanded hms (by simp [hf, hid, hj'.2]) c hc)
  · by_cases hc : j ∈ children
    · rcases hj with hj | he
      · exact absurd ((hmem j).mpr (Or.inl hc)) hj
      · exact hnew he j hc m hm
    · have hms := hold hm hc
      by_cases hid : j = id
      · subst hid
        obtain rfl : m = n := Option.some.inj (hms.symm.trans hn)
        exact hgoal
      · refine h.tested hms (hj.imp_left fun hj => ?_)
        have hj' : j ∉ children ∧ j ∉ rest := by simpa [hmem] using hj
        simp [hf, hid, hj'.2]

/-- With an empty frontier everything that can be reached is stored. -/
theorem Invariant.stored_of_reachable (h : Invariant e p s) (hf : s.frontier = []) {u : Situation}
    (hu : p.Reachable u) : s.space.Stored u := by
  obtain ⟨os, hrun⟩ := hu
  refine hrun.preserves h.forest.root fun a o b ha hb => ?_
  obtain ⟨j, m, hm, rfl⟩ := ha
  exact h.expanded hm (by simp [hf]) _ hb

theorem Invariant.unsolvable (h : Invariant e p s) (hf : s.frontier = []) :
    Outcome.Right p .unsolvable := by
  refine Or.inr fun u hu => ?_
  obtain ⟨j, m, hm, rfl⟩ := h.stored_of_reachable hf hu
  exact h.tested hm (Or.inl (by simp [hf]))

theorem invariant_new (hgoal : e = .breadthFirst → p.isGoal p.initial = false) :
    Invariant e p { space := .new Situation.hash p.initial, frontier := [0] } := by
  refine ⟨forest_new p _, ?_, fun hn hid => ?_, fun hn hid => ?_⟩
  · simp [size_new]
  · exact absurd (getElem?_new.mp hn).1 (by simpa using hid)
  · obtain ⟨rfl, rfl⟩ := getElem?_new.mp hn
    exact hgoal (hid.resolve_left (by simp))

theorem Invariant.success (h : Invariant e p s) (hn : s.space.nodes[id]? = some n)
    (hgoal : p.isGoal n.situation = true) : Outcome.Right p (.success (s.space.planTo id)) :=
  ⟨n.situation, h.forest.run_planTo hn, hgoal⟩

end Search

/-- A search goes on with one node less to expand for every node it has stored, or it ends with a right
answer. A limit is given as the answer only if it is exceeded. -/
def Progress.Right (e : Engine) (p : EncodedProblem) (exceeded : Option Limit) (s : Search) :
    Progress → Prop
  | .running t => t.Invariant e p ∧
      t.frontier.length + s.space.nodes.size + 1 = s.frontier.length + t.space.nodes.size
  | .finished outcome _ => outcome.Right p ∧ ∀ l, outcome = .exceeded l → exceeded = some l

namespace Engine

variable {e : Engine} {p : EncodedProblem} {s : Search}

theorem stepDepthFirst_right (h : s.Invariant .depthFirst p) (exceeded : Option Limit) :
    (stepDepthFirst p exceeded s).Right .depthFirst p exceeded s := by
  rw [stepDepthFirst]
  cases hf : s.frontier with
  | nil => exact ⟨h.unsolvable hf, by simp⟩
  | cons id rest =>
      obtain ⟨n, hn⟩ := h.node hf
      simp only [situation_eq hn]
      by_cases hgoal : p.isGoal n.situation = true
      · rw [if_pos hgoal]
        exact ⟨h.success hn hgoal, by simp⟩
      · rw [if_neg hgoal]
        cases exceeded with
        | some limit => exact ⟨trivial, fun l hl => by simpa using hl⟩
        | none =>
            let r := s.countExpanded (p.successors n.situation)
            obtain ⟨hforest, hstores, hstored⟩ := Search.storeAll_spec (s := r) h.forest hn fun c hc => hc
            have hmem : ∀ j, j ∈ (r.storeAll id (p.successors n.situation)).1 ++ rest ↔
                j ∈ (r.storeAll id (p.successors n.situation)).1 ∨ j ∈ rest := fun j => List.mem_append
            have hsize := hstores.size
            refine ⟨h.expand (r := r) hf hn (Bool.eq_false_iff.mpr hgoal) hforest rfl hstores.toGrows hstored (by simp)
              hmem, ?_⟩
            change _ = s.space.nodes.size + _ at hsize
            simp only [List.length_append, List.length_cons, hf, r] at hsize ⊢
            omega

theorem stepBreadthFirst_right (h : s.Invariant .breadthFirst p) (exceeded : Option Limit) :
    (stepBreadthFirst p exceeded s).Right .breadthFirst p exceeded s := by
  rw [stepBreadthFirst]
  cases hf : s.frontier with
  | nil => exact ⟨h.unsolvable hf, by simp⟩
  | cons id rest =>
      obtain ⟨n, hn⟩ := h.node hf
      cases exceeded with
      | some limit => exact ⟨trivial, fun l hl => by simpa using hl⟩
      | none =>
          simp only [situation_eq hn]
          have hgoal : p.isGoal n.situation = false := h.tested hn (Or.inr rfl)
          let r := { s with frontier := rest }.countExpanded (p.successors n.situation)
          obtain ⟨hforest, hstores, hstored⟩ := Search.storeAll_spec (s := r) h.forest hn fun c hc => hc
          rcases Search.enqueue_spec (s := r) h.forest hn fun c hc => hc with
            ⟨hrun, hnew⟩ | ⟨ds, j, m, hds, hm, hgoal', hdone⟩
          · rw [hrun]
            have hsize := hstores.size
            have hmem : ∀ j, j ∈ rest ++ (r.storeAll id (p.successors n.situation)).1 ↔
                j ∈ (r.storeAll id (p.successors n.situation)).1 ∨ j ∈ rest := by
              intro j
              rw [List.mem_append, or_comm]
            refine ⟨h.expand (r := r) hf hn hgoal hforest rfl hstores.toGrows hstored (fun _ => hnew) hmem, ?_⟩
            change _ = s.space.nodes.size + _ at hsize
            change (rest ++ _).length + _ + 1 = _ + _
            simp only [List.length_append, List.length_cons, hf]
            omega
          · rw [hdone]
            obtain ⟨hforest', -⟩ := Search.storeAll_spec (s := r) h.forest hn hds.subset
            exact ⟨⟨m.situation, hforest'.run_planTo hm, hgoal'⟩, by simp⟩

theorem step_right (h : s.Invariant e p) (exceeded : Option Limit) :
    (e.step p exceeded s).Right e p exceeded s := by
  cases e with
  | depthFirst => exact stepDepthFirst_right h exceeded
  | breadthFirst => exact stepBreadthFirst_right h exceeded

theorem start_cases (e : Engine) (p : EncodedProblem) :
    p.unsolvable?.isSome = true ∧ e.start p = .finished .unsolvable {} ∨
    p.isGoal p.initial = true ∧ e.start p = .finished (.success {}) {} ∨
    (e = .breadthFirst → p.isGoal p.initial = false) ∧
      e.start p = .running { space := .new Situation.hash p.initial, frontier := [0] } := by
  rw [start]
  by_cases hu : p.unsolvable?.isSome = true
  · exact Or.inl ⟨hu, if_pos hu⟩
  rw [if_neg hu]
  by_cases hgoal : e = .breadthFirst ∧ p.isGoal p.initial = true
  · exact Or.inr (Or.inl ⟨hgoal.2, if_pos hgoal⟩)
  · exact Or.inr (Or.inr ⟨by simpa using hgoal, if_neg hgoal⟩)

theorem start_right (e : Engine) (p : EncodedProblem) :
    (∃ outcome stats, e.start p = .finished outcome stats ∧ outcome.Right p ∧ ∀ l, outcome ≠ .exceeded l) ∨
      ∃ s : Search, e.start p = .running s ∧ s.Invariant e p ∧ s.frontier.length = s.space.nodes.size := by
  rcases start_cases e p with ⟨hu, hs⟩ | ⟨hgoal, hs⟩ | ⟨hgoal, hs⟩
  · exact Or.inl ⟨_, _, hs, Or.inl hu, by simp⟩
  · exact Or.inl ⟨_, _, hs, ⟨p.initial, .nil _, hgoal⟩, by simp⟩
  · exact Or.inr ⟨_, hs, Search.invariant_new hgoal, by simp [size_new]⟩

@[simp]
theorem run_finished (exceeded : Nat → Option Limit) (fuel : Nat) (outcome : Outcome) (stats : Statistics) :
    e.run p exceeded fuel (.finished outcome stats) = some (outcome, stats) := by
  cases fuel <;> rfl

theorem run_right {exceeded : Nat → Option Limit} {fuel : Nat} {outcome : Outcome} {stats : Statistics}
    (h : s.Invariant e p) (hrun : e.run p exceeded fuel (.running s) = some (outcome, stats)) :
    outcome.Right p ∧ ∀ l, outcome = .exceeded l → ∃ n, exceeded n = some l := by
  induction fuel generalizing s with
  | zero => simp [run] at hrun
  | succ fuel ih =>
      have hstep := step_right h (exceeded s.statistics.expanded)
      rw [run] at hrun
      cases hs : e.step p (exceeded s.statistics.expanded) s with
      | running t =>
          rw [hs] at hstep hrun
          exact ih hstep.1 hrun
      | finished o st =>
          rw [hs] at hstep hrun
          obtain ⟨rfl, rfl⟩ : o = outcome ∧ st = stats := by simpa [run] using hrun
          exact ⟨hstep.1, fun l hl => ⟨_, hstep.2 l hl⟩⟩

theorem search_right {exceeded : Nat → Option Limit} {fuel : Nat} {outcome : Outcome} {stats : Statistics}
    (h : e.search p exceeded fuel = some (outcome, stats)) :
    outcome.Right p ∧ ∀ l, outcome = .exceeded l → ∃ n, exceeded n = some l := by
  rw [search] at h
  obtain ⟨o, st, hs, hright, hl⟩ | ⟨s, hs, hinv, -⟩ := start_right e p
  · rw [hs] at h
    obtain ⟨rfl, rfl⟩ : o = outcome ∧ st = stats := by simpa [run] using h
    exact ⟨hright, fun l hol => absurd hol (hl l)⟩
  · rw [hs] at h
    exact run_right hinv h

theorem size_le_ncard (h : s.Invariant e p) (hfin : {u | p.Reachable u}.Finite) :
    s.space.nodes.size ≤ {u | p.Reachable u}.ncard :=
  h.forest.le_ncard le_rfl (fun _ _ hn _ => h.forest.reachable ⟨_, _, hn, rfl⟩) hfin

theorem run_returns {bound fuel : Nat} {exceeded : Nat → Option Limit} (h : s.Invariant e p)
    (hbound : ∀ t : Search, t.Invariant e p → t.space.nodes.size ≤ bound)
    (hfuel : s.frontier.length + bound < fuel + s.space.nodes.size) :
    ∃ r, e.run p exceeded fuel (.running s) = some r := by
  induction fuel generalizing s with
  | zero =>
      have hsize := hbound s h
      omega
  | succ fuel ih =>
      have hstep := step_right h (exceeded s.statistics.expanded)
      rw [run]
      cases hs : e.step p (exceeded s.statistics.expanded) s with
      | running t =>
          rw [hs] at hstep
          have hless := hstep.2
          exact ih hstep.1 (by omega)
      | finished o st => exact ⟨(o, st), run_finished ..⟩

theorem run_of_le {exceeded : Nat → Option Limit} {g : Progress} {fuel fuel' : Nat}
    {r : Outcome × Statistics} (h : e.run p exceeded fuel g = some r) (hle : fuel ≤ fuel') :
    e.run p exceeded fuel' g = some r := by
  induction fuel generalizing g fuel' with
  | zero =>
      cases g with
      | running s => simp [run] at h
      | finished o st => simpa [run] using h
  | succ fuel ih =>
      cases g with
      | finished o st => simpa [run] using h
      | running s =>
          obtain ⟨k, rfl⟩ := Nat.exists_eq_add_of_lt (Nat.lt_of_succ_le hle)
          rw [run] at h ⊢
          exact ih h (by omega)

theorem search_returns (hfin : {u | p.Reachable u}.Finite) (exceeded : Nat → Option Limit) :
    ∃ r, e.search p exceeded ({u | p.Reachable u}.ncard + 1) = some r := by
  rw [search]
  obtain ⟨o, st, hs, -⟩ | ⟨s, hs, hinv, hsize⟩ := start_right e p
  · exact ⟨(o, st), by rw [hs]; rfl⟩
  · rw [hs]
    exact run_returns hinv (fun t ht => size_le_ncard ht hfin) (by omega)

theorem search_of_unsolvable {exceeded : Nat → Option Limit} {fuel : Nat}
    (h : p.unsolvable?.isSome = true) : e.search p exceeded fuel = some (.unsolvable, {}) := by
  rw [search, start, if_pos h, run]

theorem search_ne_exceeded {fuel : Nat} {outcome : Outcome} {stats : Statistics}
    (h : e.search p (fun _ => none) fuel = some (outcome, stats)) (l : Limit) : outcome ≠ .exceeded l := by
  intro ho
  obtain ⟨n, hn⟩ := (search_right h).2 l ho
  simp at hn

theorem search_success_iff {fuel : Nat} {outcome : Outcome} {stats : Statistics}
    (h : e.search p (fun _ => none) fuel = some (outcome, stats)) :
    (∃ plan, outcome = .success plan) ↔
      p.unsolvable?.isSome = false ∧ ∃ s, p.Reachable s ∧ p.isGoal s = true := by
  obtain ⟨hright, -⟩ := search_right h
  constructor
  · rintro ⟨plan, rfl⟩
    obtain ⟨s, hrun, hgoal⟩ := hright
    refine ⟨Bool.eq_false_iff.mpr fun hu => ?_, s, ⟨_, hrun⟩, hgoal⟩
    simp [search_of_unsolvable hu] at h
  · rintro ⟨hu, s, hs, hgoal⟩
    cases outcome with
    | success plan => exact ⟨plan, rfl⟩
    | unsolvable =>
        rcases hright with hright | hright
        · exact absurd (hu.symm.trans hright) (by simp)
        · exact absurd ((hright s hs).symm.trans hgoal) (by simp)
    | exceeded l => exact absurd rfl (search_ne_exceeded h l)

theorem search_decides {fuel : Nat} {outcome : Outcome} {stats : Statistics}
    (h : e.search p (fun _ => none) fuel = some (outcome, stats)) : outcome.Decides p := by
  refine ⟨?_, search_success_iff h⟩
  cases outcome with
  | success plan => exact Or.inr ⟨plan, rfl⟩
  | unsolvable => exact Or.inl rfl
  | exceeded l => exact absurd rfl (search_ne_exceeded h l)

/-- A plan that is found leads to a goal by successors, and where none can be found no goal can be
reached. No limit is said to be exceeded that was not. If finitely many situations can be reached, both engines
find out in finitely many steps without limits: a plan is found if and only if a goal can be reached, unless it was
known before that there is none. -/
theorem search_answers_right (p : EncodedProblem) :
    (∀ (e : Engine) (exceeded : Nat → Option Limit) (fuel : Nat) (outcome : Outcome) (stats : Statistics),
      e.search p exceeded fuel = some (outcome, stats) →
        (∀ plan, outcome = .success plan →
          ∃ s, p.Run p.initial plan.steps s ∧ p.isGoal s = true) ∧
        (outcome = .unsolvable →
          p.unsolvable?.isSome = true ∨ ∀ s, p.Reachable s → p.isGoal s = false) ∧
        ∀ l, outcome = .exceeded l → ∃ n, exceeded n = some l) ∧
    ({s | p.Reachable s}.Finite →
      ∃ (n : Nat) (d b : Outcome × Statistics),
        (∀ fuel ≥ n, depthFirst.search p (fun _ => none) fuel = some d ∧
          breadthFirst.search p (fun _ => none) fuel = some b) ∧
        d.1.Decides p ∧ b.1.Decides p ∧
        ((∃ plan, d.1 = .success plan) ↔ ∃ plan, b.1 = .success plan)) := by
  refine ⟨fun e exceeded fuel outcome stats h => ?_, fun hfin => ?_⟩
  · obtain ⟨hright, hlimit⟩ := search_right h
    refine ⟨?_, ?_, hlimit⟩
    · rintro plan rfl
      exact hright
    · rintro rfl
      exact hright
  · obtain ⟨d, hd⟩ := search_returns (e := .depthFirst) hfin fun _ => none
    obtain ⟨b, hb⟩ := search_returns (e := .breadthFirst) hfin fun _ => none
    have hdecides := search_decides hd
    have hdecides' := search_decides hb
    refine ⟨_, d, b, fun fuel hfuel => ⟨run_of_le hd hfuel, run_of_le hb hfuel⟩, hdecides, hdecides', ?_⟩
    exact hdecides.2.trans hdecides'.2.symm

end Engine

theorem search_answers_right_lamp : ∃ P, ground lampDomain lampProblem = .ok P ∧ {s | P.Reachable s}.Finite ∧
    P.unsolvable?.isSome = false ∧ (∃ s, P.Reachable s ∧ P.isGoal s = true) ∧
    ∃ (n : Nat) (d b : Outcome × Statistics),
      (∀ fuel ≥ n, Engine.depthFirst.search P (fun _ => none) fuel = some d ∧
        Engine.breadthFirst.search P (fun _ => none) fuel = some b) ∧
      (∃ plan, d.1 = .success plan) ∧ ∃ plan, b.1 = .success plan := by
  obtain ⟨P, hP, hclosed, hu, s, hs, hgoal⟩ : ∃ P, ground lampDomain lampProblem = .ok P ∧
      (∀ s ∈ P.situations 40, ∀ c ∈ P.successors s, c.situation ∈ P.situations 40) ∧
      P.unsolvable?.isSome = false ∧ ∃ s ∈ P.situations 40, P.isGoal s = true :=
    exists_ok_of_any (by decide +kernel)
  have hreachable := fun s => EncodedProblem.mem_situations_iff (s := s) hclosed
  have hfin : {s | P.Reachable s}.Finite := (List.finite_toSet _).subset fun s hs => (hreachable s).mpr hs
  have hfound : ∃ s, P.Reachable s ∧ P.isGoal s = true := ⟨s, (hreachable s).mp hs, hgoal⟩
  obtain ⟨n, d, b, hsearch, hd, hb, -⟩ := (Engine.search_answers_right P).2 hfin
  exact ⟨P, hP, hfin, hu, hfound, n, d, b, hsearch, hd.2.mpr ⟨hu, hfound⟩, hb.2.mpr ⟨hu, hfound⟩⟩

end HtnPlanner
