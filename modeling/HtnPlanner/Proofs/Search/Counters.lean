import HtnPlanner.Proofs.Encoded.Validation
import HtnPlanner.Proofs.Search.Answers
import Mathlib.Algebra.BigOperators.Group.Finset.Basic

/-!
Every node is queued once, so no situation is expanded twice. A search that ends with an empty frontier has
expanded all that can be reached, and its counters do not depend on the order.
-/

namespace HtnPlanner

open SearchSpace

variable {e : Engine} {p : EncodedProblem} {r s t : Search} {id : Nat} {done rest ids : List Nat} {n : Node}

/-- The situation that the next step expands: the first of the frontier, unless a limit is exceeded or, depth
first, it is a goal. -/
def Engine.expanding? (e : Engine) (p : EncodedProblem) (exceeded : Option Limit) (s : Search) :
    Option Situation :=
  match s.frontier, exceeded with
  | id :: _, none =>
    let here := s.space.situation id
    if e = .depthFirst ∧ p.isGoal here then none else some here
  | _, _ => none

/-- The situations that a run of at most `fuel` steps expands, one after the other. -/
def Engine.expansions (e : Engine) (p : EncodedProblem) (exceeded : Nat → Option Limit) :
    Nat → Progress → List Situation
  | fuel + 1, .running s =>
    let limit := exceeded s.statistics.expanded
    (e.expanding? p limit s).toList ++ e.expansions p exceeded fuel (e.step p limit s)
  | _, _ => []

/-- Every situation that can be reached was expanded once. Its successors were counted, as generated where they
came up for the first time, which the initial situation never did, and as duplicates elsewhere, and so were the actions
and the methods that they come from. -/
def Statistics.Exact (p : EncodedProblem) (stats : Statistics) : Prop :=
  ∃ reached : Finset Situation, (∀ s, s ∈ reached ↔ p.Reachable s) ∧
    stats.expanded = reached.card ∧
    stats.generated + 1 = reached.card ∧
    stats.generated + stats.duplicates = ∑ s ∈ reached, (p.successors s).length ∧
    stats.actions = ∑ s ∈ reached, (p.successors s).countP (·.operator.isAction) ∧
    stats.methods = ∑ s ∈ reached, (p.successors s).countP (!·.operator.isAction)

theorem Statistics.Exact.eq {stats stats' : Statistics} (h : stats.Exact p) (h' : stats'.Exact p) :
    stats = stats' := by
  obtain ⟨reached, hmem, hexpanded, hgenerated, hsum, hactions, hmethods⟩ := h
  obtain ⟨reached', hmem', hexpanded', hgenerated', hsum', hactions', hmethods'⟩ := h'
  obtain rfl : reached = reached' := Finset.ext fun s => (hmem s).trans (hmem' s).symm
  cases stats
  cases stats'
  simp only [Statistics.mk.injEq] at *
  omega

namespace SearchSpace

variable {space : SearchSpace}

/-- Each step of a plan has a node of its own, the one that it was used on. -/
theorem Forest.length_planTo_le (h : Forest p space)
    (horigin : ∀ {id parent : Nat} {n : Node} {o : Operator}, space.nodes[id]? = some n →
      n.origin = some (parent, o) → parent ∈ done) (hn : space.nodes[id]? = some n) :
    (space.planTo id).steps.length ≤ done.length := by
  have hbelow : (space.planTo id).steps.length ≤ (done.toFinset.filter (· < id)).card := by
    refine h.planTo_induction (Q := fun id os => os.length ≤ (done.toFinset.filter (· < id)).card)
      (fun _ _ => Nat.zero_le _) (fun {id parent m o os} hm ho hparent => ?_) hn
    obtain ⟨hlt, -⟩ := h.later hm ho
    have hnext : done.toFinset.filter (· < parent) ⊂ done.toFinset.filter (· < id) := by
      refine (Finset.ssubset_iff_of_subset ?_).mpr ⟨parent, ?_, by simp⟩
      · exact Finset.monotone_filter_right _ fun i _ hi => hi.trans hlt
      · exact Finset.mem_filter.mpr ⟨List.mem_toFinset.mpr (horigin hm ho), hlt⟩
    rw [List.length_append, List.length_singleton]
    exact hparent.trans_lt (Finset.card_lt_card hnext)
  exact hbelow.trans ((Finset.card_filter_le _ _).trans (List.toFinset_card_le _))

end SearchSpace

namespace Search

theorem Grows.map_situation (h : Grows s t ids) {l : List Nat} (hl : ∀ id ∈ l, id < s.space.nodes.size) :
    l.map t.space.situation = l.map s.space.situation := by
  refine List.map_congr_left fun id hid => ?_
  have hn := Array.getElem?_eq_getElem (hl id hid)
  rw [situation_eq hn, situation_eq (h.kept hn)]

/-- The nodes `done` were expanded, each once. All others that are stored are in the frontier, and each came up
from one that was expanded. -/
structure Counted (p : EncodedProblem) (done : List Nat) (s : Search) : Prop where
  perm : (done ++ s.frontier).Perm (List.range s.space.nodes.size)
  origin : ∀ {id parent : Nat} {n : Node} {o : Operator}, s.space.nodes[id]? = some n →
    n.origin = some (parent, o) → parent ∈ done
  expanded : s.statistics.expanded = done.length
  generated : s.statistics.generated + 1 = s.space.nodes.size
  successors : s.statistics.generated + s.statistics.duplicates =
    ((done.map s.space.situation).map fun u => (p.successors u).length).sum
  actions : s.statistics.actions =
    ((done.map s.space.situation).map fun u => (p.successors u).countP (·.operator.isAction)).sum
  methods : s.statistics.methods =
    ((done.map s.space.situation).map fun u => (p.successors u).countP (!·.operator.isAction)).sum

namespace Counted

theorem lt_size (h : Counted p done s) (hid : id ∈ done ++ s.frontier) : id < s.space.nodes.size :=
  List.mem_range.mp (h.perm.subset hid)

theorem nodup_situations (h : Counted p done s) (hspace : s.space.Indexed) :
    ((done ++ s.frontier).map s.space.situation).Nodup := by
  have hnodup : (done ++ s.frontier).Nodup := h.perm.nodup_iff.mpr List.nodup_range
  exact hnodup.map_on fun i hi j hj hij => hspace.situation_inj (h.lt_size hi) (h.lt_size hj) hij

theorem nodup_done (h : Counted p done s) (hspace : s.space.Indexed) : (done.map s.space.situation).Nodup := by
  have hnodup := h.nodup_situations hspace
  rw [List.map_append] at hnodup
  exact hnodup.of_append_left

theorem nodup_next (h : Counted p done s) (hspace : s.space.Indexed) (hf : s.frontier = id :: rest) :
    ((done ++ [id]).map s.space.situation).Nodup := by
  have hnodup := h.nodup_situations hspace
  rw [hf, List.append_cons, List.map_append] at hnodup
  exact hnodup.of_append_left

/-- Whatever is stored for the node that is expanded, the nodes that others came up from are expanded. -/
theorem origin_mem (h : Counted p done s) (hspace : r.space = s.space) {cs : List Successor}
    (hstores : Stores id cs r t ids) {j parent : Nat} {m : Node} {o : Operator}
    (hm : t.space.nodes[j]? = some m) (ho : m.origin = some (parent, o)) : parent ∈ done ++ [id] := by
  rcases hstores.origin hm with hm | ⟨o', ho'⟩
  · exact List.mem_append_left _ (h.origin (hspace ▸ hm) ho)
  · obtain ⟨rfl, -⟩ := Prod.mk.inj (Option.some.inj (ho.symm.trans ho'))
    exact List.mem_append_right _ List.mem_cons_self

theorem expand (h : Counted p done s) (hf : s.frontier = id :: rest) (hspace : r.space = s.space)
    (hstatistics : r.statistics = (s.countExpanded (p.successors (s.space.situation id))).statistics)
    (hstores : Stores id (p.successors (s.space.situation id)) r t ids) {f : List Nat}
    (hperm : f.Perm (ids ++ rest)) :
    Counted p (done ++ [id]) { t with frontier := f } ∧
      (done ++ [id]).map t.space.situation = (done ++ [id]).map s.space.situation := by
  have hmap : (done ++ [id]).map t.space.situation = (done ++ [id]).map s.space.situation := by
    rw [← hspace]
    refine hstores.map_situation fun j hj => ?_
    rw [hspace]
    refine h.lt_size (List.mem_append.mpr ((List.mem_append.mp hj).imp_right fun hid => ?_))
    rw [hf, List.mem_singleton.mp hid]
    exact List.mem_cons_self
  refine ⟨⟨?_, h.origin_mem hspace hstores, ?_, ?_, ?_, ?_, ?_⟩, hmap⟩
  · have hids : ids = List.range' s.space.nodes.size ids.length := hspace ▸ hstores.ids_eq
    have hsize : t.space.nodes.size = s.space.nodes.size + ids.length := hspace ▸ hstores.size
    have hqueue : (done ++ [id] ++ f).Perm (done ++ s.frontier ++ ids) := by
      rw [hf, List.append_assoc, List.append_assoc]
      exact ((hperm.trans List.perm_append_comm).cons id).append_left done
    have hrange : List.range s.space.nodes.size ++ ids = List.range t.space.nodes.size := by
      rw [hids, hsize, List.range_eq_range', List.range_eq_range',
        ← List.range'_append_1, Nat.zero_add]
    exact hrange ▸ hqueue.trans (h.perm.append_right ids)
  · simp only [hstores.expanded, hstatistics, countExpanded, h.expanded, List.length_append, List.length_singleton]
  · have hgenerated := h.generated
    simp only [hstores.generated, hstores.size, hspace, hstatistics, countExpanded]
    omega
  · simp only [hstores.counted, hstatistics, countExpanded, h.successors, hmap]
    simp
  · simp only [hstores.actions, hstatistics, countExpanded, h.actions, hmap]
    simp
  · simp only [hstores.methods, hstatistics, countExpanded, h.methods, hmap]
    simp

/-- With an empty frontier all that can be reached was expanded. -/
theorem exact_of_frontier_eq_nil (h : Counted p done s) (hinvariant : s.Invariant e p) (hf : s.frontier = []) :
    s.statistics.Exact p := by
  have hperm : done.Perm (List.range s.space.nodes.size) := by simpa [hf] using h.perm
  have hnodup := h.nodup_done hinvariant.forest.toIndexed
  have hcard : (done.map s.space.situation).toFinset.card = done.length := by
    rw [List.toFinset_card_of_nodup hnodup, List.length_map]
  refine ⟨(done.map s.space.situation).toFinset, fun u => ?_, ?_, ?_, ?_, ?_, ?_⟩
  · rw [List.mem_toFinset, List.mem_map]
    constructor
    · rintro ⟨id, hid, rfl⟩
      have hn := Array.getElem?_eq_getElem (h.lt_size (List.mem_append_left _ hid))
      exact hinvariant.forest.reachable ⟨id, _, hn, (situation_eq hn).symm⟩
    · intro hu
      obtain ⟨id, n, hn, rfl⟩ := hinvariant.stored_of_reachable hf hu
      exact ⟨id, hperm.mem_iff.mpr (List.mem_range.mpr (lt_size_of_getElem? hn)), situation_eq hn⟩
  · rw [h.expanded, hcard]
  · rw [h.generated, hcard, hperm.length_eq, List.length_range]
  · rw [h.successors, List.sum_toFinset _ hnodup]
  · rw [h.actions, List.sum_toFinset _ hnodup]
  · rw [h.methods, List.sum_toFinset _ hnodup]

end Counted

theorem counted_new : Counted p [] { space := .new Situation.hash p.initial, frontier := [0] } := by
  refine ⟨by simp [size_new], fun {id parent n o} hn ho => ?_, rfl, by simp [size_new], rfl, rfl, rfl⟩
  rw [(getElem?_new.mp hn).2] at ho
  exact absurd ho (by simp)

end Search

/-- What a search that ended says of the situations that it expanded. -/
structure Outcome.Counts (p : EncodedProblem) (expanded : List Situation) (outcome : Outcome)
    (stats : Statistics) : Prop where
  nodup : expanded.Nodup
  length_eq : expanded.length = stats.expanded
  success : ∀ plan, outcome = .success plan → plan.steps.length ≤ stats.expanded
  unsolvable : outcome = .unsolvable → p.unsolvable?.isSome = true ∨ stats.Exact p

/-- A step goes on with the node that it expands counted, or it ends with everything counted. -/
def Progress.Counts (e : Engine) (p : EncodedProblem) (exceeded : Option Limit) (done : List Nat) (s : Search) :
    Progress → Prop
  | .running t => ∃ id, e.expanding? p exceeded s = some (s.space.situation id) ∧
      t.Counted p (done ++ [id]) ∧ (done ++ [id]).map t.space.situation = (done ++ [id]).map s.space.situation
  | .finished outcome stats =>
      outcome.Counts p (done.map s.space.situation ++ (e.expanding? p exceeded s).toList) stats

namespace Engine

theorem counts_before (h : s.Counted p done) (hinvariant : s.Invariant e p) {exceeded : Option Limit}
    (hnone : e.expanding? p exceeded s = none) {outcome : Outcome}
    (hsuccess : ∀ plan, outcome = .success plan → plan.steps.length ≤ s.statistics.expanded)
    (hunsolvable : outcome = .unsolvable → s.frontier = []) :
    (Progress.finished outcome s.statistics).Counts e p exceeded done s := by
  rw [Progress.Counts, hnone, Option.toList_none, List.append_nil]
  exact ⟨h.nodup_done hinvariant.forest.toIndexed, by rw [List.length_map, h.expanded], hsuccess,
    fun ho => Or.inr (h.exact_of_frontier_eq_nil hinvariant (hunsolvable ho))⟩

theorem stepDepthFirst_counts (h : s.Counted p done) (hinvariant : s.Invariant .depthFirst p)
    (exceeded : Option Limit) :
    (stepDepthFirst p exceeded s).Counts .depthFirst p exceeded done s := by
  rw [stepDepthFirst]
  cases hf : s.frontier with
  | nil => exact counts_before h hinvariant (by simp [expanding?, hf]) (by simp) fun _ => hf
  | cons id rest =>
      obtain ⟨n, hn⟩ := hinvariant.node hf
      by_cases hgoal : p.isGoal (s.space.situation id) = true
      · simp only [hgoal, if_true]
        refine counts_before h hinvariant (by cases exceeded <;> simp [expanding?, hf, hgoal]) ?_ (by simp)
        rintro plan ⟨rfl⟩
        rw [h.expanded]
        exact hinvariant.forest.length_planTo_le h.origin hn
      · simp only [hgoal]
        cases exceeded with
        | some limit => exact counts_before h hinvariant (by simp [expanding?, hf]) (by simp) (by simp)
        | none =>
            let r := s.countExpanded (p.successors (s.space.situation id))
            obtain ⟨-, hstores, -⟩ := Search.storeAll_spec (s := r) hinvariant.forest hn fun c hc => hc
            rw [← situation_eq hn] at hstores
            exact ⟨id, by simp [expanding?, hf, hgoal],
              h.expand (r := r) hf rfl rfl hstores (List.Perm.refl _)⟩

theorem stepBreadthFirst_counts (h : s.Counted p done) (hinvariant : s.Invariant .breadthFirst p)
    (exceeded : Option Limit) :
    (stepBreadthFirst p exceeded s).Counts .breadthFirst p exceeded done s := by
  rw [stepBreadthFirst]
  cases hf : s.frontier with
  | nil => exact counts_before h hinvariant (by simp [expanding?, hf]) (by simp) fun _ => hf
  | cons id rest =>
      cases exceeded with
      | some limit => exact counts_before h hinvariant (by simp [expanding?, hf]) (by simp) (by simp)
      | none =>
          obtain ⟨n, hn⟩ := hinvariant.node hf
          have hexpanding : expanding? .breadthFirst p none s = some (s.space.situation id) := by
            simp [expanding?, hf]
          have hcs : ∀ c ∈ p.successors (s.space.situation id), c ∈ p.successors n.situation := by
            simp [situation_eq hn]
          let r := { s with frontier := rest }.countExpanded (p.successors (s.space.situation id))
          show ((r.enqueue p id (p.successors (s.space.situation id))).Counts ..)
          rcases Search.enqueue_spec (s := r) hinvariant.forest hn hcs with
            ⟨hrun, -⟩ | ⟨ds, j, m, hds, hm, -, hdone⟩
          · obtain ⟨-, hstores, -⟩ := Search.storeAll_spec (s := r) hinvariant.forest hn hcs
            rw [hrun]
            exact ⟨id, hexpanding, h.expand (r := r) hf rfl rfl hstores List.perm_append_comm⟩
          · obtain ⟨hforest, hstores, -⟩ := Search.storeAll_spec (s := r) hinvariant.forest hn
              fun c hc => hcs c (hds.subset hc)
            have hexpanded : (r.storeAll id ds).2.statistics.expanded = (done ++ [id]).length := by
              rw [hstores.expanded, List.length_append, ← h.expanded]
              rfl
            have hnodup := h.nodup_next hinvariant.forest.toIndexed hf
            rw [hdone, Progress.Counts, hexpanding]
            refine ⟨by simpa using hnodup, by simp [hexpanded], ?_, by simp⟩
            rintro plan ⟨rfl⟩
            rw [hexpanded]
            exact hforest.length_planTo_le (h.origin_mem (r := r) rfl hstores) hm

theorem step_counts (h : s.Counted p done) (hinvariant : s.Invariant e p) (exceeded : Option Limit) :
    (e.step p exceeded s).Counts e p exceeded done s := by
  cases e with
  | depthFirst => exact stepDepthFirst_counts h hinvariant exceeded
  | breadthFirst => exact stepBreadthFirst_counts h hinvariant exceeded

@[simp]
theorem expansions_finished (exceeded : Nat → Option Limit) (fuel : Nat) (outcome : Outcome) (stats : Statistics) :
    e.expansions p exceeded fuel (.finished outcome stats) = [] := by
  cases fuel <;> rfl

theorem run_counts {exceeded : Nat → Option Limit} {fuel : Nat} (h : s.Counted p done)
    (hinvariant : s.Invariant e p) :
    (done.map s.space.situation ++ e.expansions p exceeded fuel (.running s)).Nodup ∧
      ∀ outcome stats, e.run p exceeded fuel (.running s) = some (outcome, stats) →
        outcome.Counts p (done.map s.space.situation ++ e.expansions p exceeded fuel (.running s)) stats := by
  induction fuel generalizing s done with
  | zero =>
      have hnodup := h.nodup_done hinvariant.forest.toIndexed
      exact ⟨by simpa [expansions] using hnodup, by simp [run]⟩
  | succ fuel ih =>
      have hstep := step_counts h hinvariant (exceeded s.statistics.expanded)
      have hright := step_right hinvariant (exceeded s.statistics.expanded)
      rw [run, expansions]
      cases hs : e.step p (exceeded s.statistics.expanded) s with
      | running t =>
          rw [hs] at hstep hright
          obtain ⟨id, hexpanding, hcounted, hmap⟩ := hstep
          have hnext := ih hcounted hright.1
          rw [hmap] at hnext
          simpa [hexpanding] using hnext
      | finished outcome stats =>
          rw [hs] at hstep
          simp only [expansions_finished, run_finished, List.append_nil, Option.some.injEq, Prod.mk.injEq]
          refine ⟨hstep.nodup, ?_⟩
          rintro _ _ ⟨rfl, rfl⟩
          exact hstep

theorem search_counts (e : Engine) (p : EncodedProblem) (exceeded : Nat → Option Limit) (fuel : Nat) :
    (e.expansions p exceeded fuel (e.start p)).Nodup ∧ ∀ outcome stats,
      e.search p exceeded fuel = some (outcome, stats) →
        outcome.Counts p (e.expansions p exceeded fuel (e.start p)) stats := by
  rw [search]
  rcases start_cases e p with ⟨hu, hs⟩ | ⟨-, hs⟩ | ⟨hgoal, hs⟩
  · simp only [hs, expansions_finished, run_finished, Option.some.injEq, Prod.mk.injEq]
    refine ⟨List.nodup_nil, ?_⟩
    rintro _ _ ⟨rfl, rfl⟩
    exact ⟨List.nodup_nil, rfl, by simp, fun _ => Or.inl hu⟩
  · simp only [hs, expansions_finished, run_finished, Option.some.injEq, Prod.mk.injEq]
    refine ⟨List.nodup_nil, ?_⟩
    rintro _ _ ⟨rfl, rfl⟩
    exact ⟨List.nodup_nil, rfl, by rintro plan ⟨rfl⟩; rfl, by simp⟩
  · rw [hs]
    exact run_counts Search.counted_new (Search.invariant_new hgoal)

/-- Once a search has found no plan, only finitely many situations can be reached, so any other comes to the
same end, and it has counted the same. -/
theorem search_unsolvable {e' : Engine} {exceeded : Nat → Option Limit} {fuel : Nat} {stats : Statistics}
    (hu : p.unsolvable?.isSome = false) (h : e.search p exceeded fuel = some (.unsolvable, stats))
    (hexact : stats.Exact p) : ∃ n, ∀ fuel ≥ n, e'.search p (fun _ => none) fuel = some (.unsolvable, stats) := by
  have hfin : {u | p.Reachable u}.Finite := by
    obtain ⟨reached, hmem, -⟩ := hexact
    exact reached.finite_toSet.subset fun u hu => (hmem u).mpr hu
  obtain ⟨⟨outcome, stats'⟩, hsearch⟩ := search_returns (e := e') hfin fun _ => none
  have hnoGoal : ∀ u, p.Reachable u → p.isGoal u = false := by
    rcases (search_right h).1 with hsome | hnoGoal
    · simp [hu] at hsome
    · exact hnoGoal
  have hunsolvable : outcome = .unsolvable := by
    cases outcome with
    | success plan =>
        obtain ⟨u, hrun, hgoal⟩ := (search_right hsearch).1
        simp [hnoGoal u ⟨_, hrun⟩] at hgoal
    | unsolvable => rfl
    | exceeded l => exact absurd rfl (search_ne_exceeded hsearch l)
  subst hunsolvable
  obtain hsome | hexact' := ((search_counts e' p _ _).2 _ _ hsearch).unsolvable rfl
  · simp [hu] at hsome
  · exact ⟨_, fun fuel hfuel => hexact.eq hexact' ▸ run_of_le hsearch hfuel⟩

/-- A search that finds no plan expands every situation that can be reached. It has generated all of them but
the first, and every other successor was a duplicate, so the engines count alike. No search expands a situation
twice, and a plan has no more steps than situations were expanded. -/
theorem search_counters (p : EncodedProblem) :
    (p.unsolvable? = none → ∀ (e : Engine) (exceeded : Nat → Option Limit) (fuel : Nat) (stats : Statistics),
      e.search p exceeded fuel = some (.unsolvable, stats) →
        stats.Exact p ∧ ∀ e' : Engine, ∃ n, ∀ fuel ≥ n, e'.search p (fun _ => none) fuel = some (.unsolvable, stats)) ∧
    ∀ (e : Engine) (exceeded : Nat → Option Limit) (fuel : Nat),
      (e.expansions p exceeded fuel (e.start p)).Nodup ∧
      ∀ (outcome : Outcome) (stats : Statistics), e.search p exceeded fuel = some (outcome, stats) →
        (e.expansions p exceeded fuel (e.start p)).length = stats.expanded ∧
        ∀ plan, outcome = .success plan → plan.steps.length ≤ stats.expanded := by
  refine ⟨fun hu e exceeded fuel stats h => ?_, fun e exceeded fuel => ?_⟩
  · have hsome : p.unsolvable?.isSome = false := by rw [hu, Option.isSome_none]
    obtain hunsolvable | hexact := ((search_counts e p exceeded fuel).2 _ _ h).unsolvable rfl
    · simp [hsome] at hunsolvable
    · exact ⟨hexact, fun e' => search_unsolvable hsome h hexact⟩
  · obtain ⟨hnodup, hcounts⟩ := search_counts e p exceeded fuel
    refine ⟨hnodup, fun outcome stats h => ?_⟩
    have hstats := hcounts outcome stats h
    exact ⟨hstats.length_eq, hstats.success⟩

end Engine

/-- To refill twice, in any order, what is not to be full in the end. -/
def overfullProblem : Definition.Problem where
  name := "refill twice"
  domain := "refill"
  htn := { subtasks := [{ task := ⟨"refill", []⟩ }, { task := ⟨"refill", []⟩ }] }
  goal := [.neg (.atom ⟨"full", []⟩)]

theorem search_counters_overfull : ∃ P, ground refillDomain overfullProblem = .ok P ∧ P.unsolvable? = none ∧
    Engine.depthFirst.search P (fun _ => none) 4 = some (.unsolvable, ⟨3, 2, 1, 3, 0⟩) ∧
    (∃ reached : Finset Situation, (∀ s, s ∈ reached ↔ P.Reachable s) ∧ reached.card = 3 ∧
      ∑ s ∈ reached, (P.successors s).length = 3) ∧
    (∃ n, ∀ fuel ≥ n, Engine.breadthFirst.search P (fun _ => none) fuel = some (.unsolvable, ⟨3, 2, 1, 3, 0⟩)) ∧
    (Engine.depthFirst.expansions P (fun _ => none) 4 (Engine.depthFirst.start P)).Nodup := by
  obtain ⟨P, hP, hu, hsearch⟩ : ∃ P, ground refillDomain overfullProblem = .ok P ∧ P.unsolvable? = none ∧
      Engine.depthFirst.search P (fun _ => none) 4 = some (.unsolvable, ⟨3, 2, 1, 3, 0⟩) :=
    exists_ground_of_any (by decide +kernel)
  obtain ⟨hexact, hruns⟩ := Engine.search_counters P
  obtain ⟨⟨reached, hmem, hcard, -, hsum, -⟩, hother⟩ := hexact hu .depthFirst _ _ _ hsearch
  exact ⟨P, hP, hu, hsearch, ⟨reached, hmem, hcard.symm, hsum.symm⟩, hother .breadthFirst, (hruns _ _ _).1⟩

end HtnPlanner
