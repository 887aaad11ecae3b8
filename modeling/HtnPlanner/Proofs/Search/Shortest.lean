import HtnPlanner.Proofs.Encoded.Validation
import HtnPlanner.Proofs.Search.Answers
import HtnPlanner.Proofs.Search.Distance

/-!
Breadth first search goes through the situations by their distance, so the first goal that it meets is a
nearest one. As only finitely many situations are nearer, it comes to one even if there are infinitely many
situations.
-/

namespace HtnPlanner

open SearchSpace

/-- No shorter run leads to a goal. -/
def EncodedProblem.Shortest (p : EncodedProblem) (plan : Plan) : Prop :=
  (∃ s, p.Run p.initial plan.steps s ∧ p.isGoal s = true) ∧
    ∀ os s, p.Run p.initial os s → p.isGoal s = true → plan.steps.length ≤ os.length

variable {p : EncodedProblem} {s : Search} {parent k : Nat} {n m : Node} {c : Successor} {cs : List Successor}

namespace SearchSpace

/-- The nodes are stored in the order of their distances, none further away than `d + 1`, and each came up
on a shortest run. -/
structure Layered (p : EncodedProblem) (d : Nat) (space : SearchSpace) : Prop where
  ordered : ∀ {i j a b : Nat} {n m : Node}, space.nodes[i]? = some n → space.nodes[j]? = some m →
    p.Distance n.situation a → p.Distance m.situation b → i ≤ j → a ≤ b
  spread : ∀ {i a : Nat} {n : Node}, space.nodes[i]? = some n → p.Distance n.situation a → a ≤ d + 1
  origin : ∀ {i j a : Nat} {o : Operator} {n m : Node}, space.nodes[i]? = some n → n.origin = some (j, o) →
    space.nodes[j]? = some m → p.Distance m.situation a → p.Distance n.situation (a + 1)

variable {space : SearchSpace} {d : Nat}

theorem layered_new (p : EncodedProblem) (hash : Situation → Nat) : Layered p 0 (new hash p.initial) := by
  have hroot : ∀ {i : Nat} {n : Node}, (new hash p.initial).nodes[i]? = some n →
      n = { situation := p.initial } := fun hn => (getElem?_new.mp hn).2
  refine ⟨fun hn hm ha hb _ => ?_, fun hn ha => ?_, fun hn ho => ?_⟩
  · rw [hroot hn] at ha
    rw [hroot hm] at hb
    exact Nat.le_of_eq (ha.eq hb)
  · rw [hroot hn] at ha
    rw [ha.eq EncodedProblem.distance_initial]
    exact Nat.zero_le _
  · rw [hroot hn] at ho
    simp at ho

theorem Layered.mono {e : Nat} (h : Layered p d space) (hle : d ≤ e) : Layered p e space :=
  ⟨h.ordered, fun hn ha => (h.spread hn ha).trans (Nat.succ_le_succ hle), h.origin⟩

/-- A new successor of a node at distance `d` is at distance `d + 1`, if all that is as near as the node is
stored. -/
theorem Layered.push (h : Layered p d space) (hforest : Forest p space) (hm : space.nodes[parent]? = some m)
    (hd : p.Distance m.situation d) (hnear : ∀ u a, p.Distance u a → a ≤ d → space.Stored u)
    (hc : c ∈ p.successors m.situation) (hnew : ¬ space.Stored c.situation) :
    Layered p d (space.push ⟨c.situation, some (parent, c.operator)⟩) := by
  have hdistance : p.Distance c.situation (d + 1) := by
    refine hd.successor hc fun e he => ?_
    by_contra hle
    exact hnew (hnear _ _ he (Nat.le_of_not_lt hle))
  refine ⟨fun {i j a b n₁ n₂} hi hj ha hb hij => ?_, fun {i a n₁} hi ha => ?_,
    fun {i j a o n₁ n₂} hi ho hj ha => ?_⟩
  · rcases getElem?_push_eq_some.mp hj with hj | ⟨rfl, rfl⟩
    · rcases getElem?_push_eq_some.mp hi with hi | ⟨rfl, rfl⟩
      · exact h.ordered hi hj ha hb hij
      · have hlt := lt_size_of_getElem? hj
        omega
    · obtain rfl := hb.eq hdistance
      rcases getElem?_push_eq_some.mp hi with hi | ⟨-, rfl⟩
      · exact h.spread hi ha
      · exact Nat.le_of_eq (ha.eq hdistance)
  · rcases getElem?_push_eq_some.mp hi with hi | ⟨-, rfl⟩
    · exact h.spread hi ha
    · exact Nat.le_of_eq (ha.eq hdistance)
  · have hkept : ∀ {j : Nat} {n : Node}, space.nodes[j]? = some n →
        (space.push ⟨c.situation, some (parent, c.operator)⟩).nodes[j]? = some n :=
      fun hn => getElem?_push_eq_some.mpr (Or.inl hn)
    rcases getElem?_push_eq_some.mp hi with hi | ⟨-, rfl⟩
    · obtain ⟨-, n₃, hn₃, -⟩ := hforest.later hi ho
      obtain rfl := Option.some.inj (hj.symm.trans (hkept hn₃))
      exact h.origin hi ho hn₃ ha
    · obtain ⟨rfl, -⟩ := Prod.mk.inj (Option.some.inj ho)
      obtain rfl := Option.some.inj (hj.symm.trans (hkept hm))
      obtain rfl := ha.eq hd
      exact hdistance

theorem Layered.distance_planTo (h : Layered p d space) (hforest : Forest p space) {id : Nat}
    (hn : space.nodes[id]? = some n) : p.Distance n.situation (space.planTo id).steps.length := by
  rw [← situation_eq hn]
  refine hforest.planTo_induction (Q := fun id os => p.Distance (space.situation id) os.length)
    (fun hn ho => ?_) (fun hn ho hparent => ?_) hn
  · rw [situation_eq hn, hforest.first hn ho]
    exact EncodedProblem.distance_initial
  · obtain ⟨-, m, hm, -⟩ := hforest.later hn ho
    rw [situation_eq hm] at hparent
    rw [situation_eq hn, List.length_append, List.length_singleton]
    exact h.origin hn ho hm hparent

end SearchSpace

namespace Search

variable {d : Nat}

theorem storeAll_layered (h : Layered p d s.space) (hforest : Forest p s.space)
    (hm : s.space.nodes[parent]? = some m) (hd : p.Distance m.situation d)
    (hnear : ∀ u a, p.Distance u a → a ≤ d → s.space.Stored u) (hcs : ∀ c ∈ cs, c ∈ p.successors m.situation) :
    Layered p d (s.storeAll parent cs).2.space := by
  induction cs generalizing s with
  | nil => exact h
  | cons c cs ih =>
      have hc := hcs c List.mem_cons_self
      obtain ⟨hforest', hstores, -⟩ := store_spec hforest hm hc
      have hlayered : Layered p d (s.store parent c).2.space := by
        rcases store_cases hforest.toIndexed parent c with ⟨-, hstore⟩ | ⟨hnew, hstore⟩
        · rw [hstore]
          exact h
        · rw [hstore]
          exact h.push hforest hm hd hnear hc hnew
      exact ih hlayered hforest' (hstores.kept hm) (fun u a hu ha => hstores.stored (hnear u a hu ha))
        fun c' hc' => hcs c' (List.mem_cons_of_mem c hc')

/-- The frontier of a breadth first search: all nodes from the `k`-th on. -/
def Queued (k : Nat) (s : Search) : Prop := s.frontier = List.range' k (s.space.nodes.size - k)

theorem Stores.queued {t : Search} {ids : List Nat} (h : Stores parent cs s t ids) (hqueued : s.Queued k)
    (hle : k ≤ s.space.nodes.size) : Queued k { t with frontier := s.frontier ++ ids } := by
  have hfrontier : s.frontier = List.range' k (s.space.nodes.size - k) := hqueued
  have hsize : s.space.nodes.size = k + (s.space.nodes.size - k) := by omega
  have hids : ids = List.range' (k + (s.space.nodes.size - k)) ids.length := hsize ▸ h.ids_eq
  have hrange : s.frontier ++ ids = List.range' k (s.space.nodes.size - k + ids.length) := by
    rw [hfrontier, hids, List.length_range', List.range'_append_1]
  rw [Queued]
  simp only [hrange, h.size]
  congr 1
  omega

/-- With the `k`-th node next, nodes at two distances at most are queued. -/
structure Level (p : EncodedProblem) (k : Nat) (s : Search) : Prop extends Invariant .breadthFirst p s where
  queued : s.Queued k
  layered : ∃ d, Layered p d s.space ∧
    ∀ {n : Node} {a : Nat}, s.space.nodes[k]? = some n → p.Distance n.situation a → d ≤ a

namespace Level

theorem frontier_eq (h : s.Level p k) (hn : s.space.nodes[k]? = some n) :
    s.frontier = k :: List.range' (k + 1) (s.space.nodes.size - (k + 1)) := by
  have hlt := lt_size_of_getElem? hn
  have hqueued : s.frontier = List.range' k (s.space.nodes.size - k) := h.queued
  rw [hqueued, show s.space.nodes.size - k = s.space.nodes.size - (k + 1) + 1 by omega, List.range'_succ]

/-- Every situation is stored that is as near as the next node: the one before it on a shortest run is nearer
than the next node, so it was expanded. -/
theorem stored (h : s.Level p k) (hn : s.space.nodes[k]? = some n) {d : Nat} (hd : p.Distance n.situation d)
    {u : Situation} {a : Nat} (hu : p.Distance u a) (hle : a ≤ d) : s.space.Stored u := by
  obtain ⟨_, hlayered, -⟩ := h.layered
  induction a generalizing u with
  | zero =>
      obtain ⟨⟨os, hrun, hlength⟩, -⟩ := hu
      obtain rfl := List.eq_nil_of_length_eq_zero hlength
      cases hrun
      exact h.forest.root
  | succ a ih =>
      obtain ⟨o, v, hv, hsuccessor⟩ := hu.exists_origin
      obtain ⟨i, m, hm, rfl⟩ := ih hv (by omega)
      have hlt : i < k := by
        by_contra hge
        have hda := hlayered.ordered hn hm hd hv (Nat.le_of_not_lt hge)
        omega
      refine h.expanded hm ?_ _ hsuccessor
      rw [h.frontier_eq hn, ← List.range'_succ, List.mem_range'_1]
      omega

theorem far (h : s.Level p k) (hn : s.space.nodes[k]? = some n) {d : Nat} (hd : p.Distance n.situation d)
    {u : Situation} {a : Nat} (hgoal : p.isGoal u = true) (hu : p.Distance u a) : d < a := by
  by_contra hle
  obtain ⟨i, m, hm, rfl⟩ := h.stored hn hd hu (Nat.le_of_not_lt hle)
  exact absurd ((h.tested hm (Or.inr rfl)).symm.trans hgoal) (by simp)

/-- An expansion moves the queue on by one node, or it ends with a shortest plan. -/
theorem step (h : s.Level p k) (hn : s.space.nodes[k]? = some n) :
    (∃ t, Engine.stepBreadthFirst p none s = .running t ∧ t.Level p (k + 1)) ∨
    ∃ plan statistics, Engine.stepBreadthFirst p none s = .finished (.success plan) statistics ∧
      p.Shortest plan := by
  obtain ⟨d, hd⟩ := (h.forest.reachable ⟨k, n, hn, rfl⟩).exists_distance
  obtain ⟨d', hlayered', hfirst⟩ := h.layered
  have hlayered := hlayered'.mono (hfirst hn hd)
  let r : Search := ({ s with frontier := List.range' (k + 1) (s.space.nodes.size - (k + 1)) } : Search).countExpanded
    (p.successors n.situation)
  have hstep : Engine.stepBreadthFirst p none s = enqueue p k r (p.successors n.situation) := by
    simp only [Engine.stepBreadthFirst, h.frontier_eq hn, situation_eq hn]
    rfl
  have hlayers : ∀ {cs : List Successor}, (∀ c ∈ cs, c ∈ p.successors n.situation) →
      Layered p d (r.storeAll k cs).2.space := fun hcs =>
    storeAll_layered (s := r) hlayered h.forest hn hd (fun u a => h.stored hn hd) hcs
  rcases enqueue_spec (s := r) h.forest hn fun c hc => hc with ⟨hrun, -⟩ | ⟨cs, j, m, hcs, hm, hgoal, hdone⟩
  · have hright := Engine.stepBreadthFirst_right h.toInvariant none
    rw [hstep, hrun] at hright
    obtain ⟨-, hstores, -⟩ := storeAll_spec (s := r) h.forest hn fun c hc => hc
    refine Or.inl ⟨_, hstep.trans hrun, hright.1, hstores.queued rfl (lt_size_of_getElem? hn), d,
      hlayers fun c hc => hc, fun hm ha => ?_⟩
    exact (hlayers fun c hc => hc).ordered (hstores.kept hn) hm hd ha (Nat.le_succ k)
  · obtain ⟨hforest, -⟩ := storeAll_spec (s := r) h.forest hn hcs.subset
    have hdistance := (hlayers hcs.subset).distance_planTo hforest hm
    refine Or.inr ⟨_, _, hstep.trans hdone, ⟨m.situation, hforest.run_planTo hm, hgoal⟩, fun os u hrun hu => ?_⟩
    obtain ⟨a, ha⟩ := EncodedProblem.Reachable.exists_distance ⟨os, hrun⟩
    have hspread := (hlayers hcs.subset).spread hm hdistance
    have hfar : d < a := h.far hn hd hu ha
    exact (hspread.trans hfar).trans (ha.2 os hrun)

/-- As long as a goal can be reached there is a node to expand, and all up to it are nearer than the goal. -/
theorem lt_ncard (h : s.Level p k) {g : Situation} {a : Nat} (hg : p.Distance g a) (hgoal : p.isGoal g = true) :
    k < s.space.nodes.size ∧ k < {u | ∃ e, p.Distance u e ∧ e < a}.ncard := by
  obtain ⟨_, hlayered, -⟩ := h.layered
  have hlt : k < s.space.nodes.size := by
    by_contra hge
    have hempty : s.frontier = [] := by
      have hqueued : s.frontier = List.range' k (s.space.nodes.size - k) := h.queued
      rw [hqueued, Nat.sub_eq_zero_of_le (Nat.le_of_not_lt hge), List.range'_zero]
    obtain ⟨i, m, hm, rfl⟩ := h.stored_of_reachable hempty hg.reachable
    exact absurd ((h.tested hm (Or.inr rfl)).symm.trans hgoal) (by simp)
  have hn := Array.getElem?_eq_getElem hlt
  obtain ⟨d, hd⟩ := (h.forest.reachable ⟨k, _, hn, rfl⟩).exists_distance
  refine ⟨hlt, h.forest.le_ncard (Nat.succ_le_of_lt hlt) (fun i m hm hik => ?_) (EncodedProblem.finite_near p a)⟩
  obtain ⟨e, he⟩ := (h.forest.reachable ⟨i, m, hm, rfl⟩).exists_distance
  exact ⟨e, he, (hlayered.ordered hm hn he hd (Nat.le_of_lt_succ hik)).trans_lt (h.far hn hd hgoal hg)⟩

theorem run (h : s.Level p k) {g : Situation} {a : Nat} (hg : p.Distance g a) (hgoal : p.isGoal g = true)
    {fuel : Nat} (hfuel : {u | ∃ e, p.Distance u e ∧ e < a}.ncard ≤ k + fuel) :
    ∃ plan statistics, Engine.breadthFirst.run p (fun _ => none) fuel (.running s) =
      some (.success plan, statistics) ∧ p.Shortest plan := by
  induction fuel generalizing s k with
  | zero =>
      have hlt := (h.lt_ncard hg hgoal).2
      omega
  | succ fuel ih =>
      have hn := Array.getElem?_eq_getElem (h.lt_ncard hg hgoal).1
      rw [Engine.run]
      rcases h.step hn with ⟨t, hstep, ht⟩ | ⟨plan, statistics, hstep, hshortest⟩
      · rw [Engine.step, hstep]
        exact ih ht (by omega)
      · rw [Engine.step, hstep]
        exact ⟨plan, statistics, Engine.run_finished .., hshortest⟩

end Level

theorem level_new (hgoal : p.isGoal p.initial = false) :
    Level p 0 { space := .new Situation.hash p.initial, frontier := [0] } := by
  refine ⟨invariant_new fun _ => hgoal, ?_, 0, layered_new p _, fun _ _ => Nat.zero_le _⟩
  rw [Queued, size_new]
  rfl

end Search

/-- Breadth first search finds a shortest plan wherever there is a plan, however many situations can be
reached. -/
theorem Engine.breadthFirst_finds_shortest {p : EncodedProblem} (hu : p.unsolvable? = none) {g : Situation}
    (hg : p.Reachable g) (hgoal : p.isGoal g = true) :
    ∃ n plan statistics,
      (∀ fuel ≥ n, Engine.breadthFirst.search p (fun _ => none) fuel = some (.success plan, statistics)) ∧
      (∃ s, p.Run p.initial plan.steps s ∧ p.isGoal s = true) ∧
      ∀ os s, p.Run p.initial os s → p.isGoal s = true → plan.steps.length ≤ os.length := by
  obtain ⟨a, ha⟩ := hg.exists_distance
  by_cases hinitial : p.isGoal p.initial = true
  · have hstart : Engine.breadthFirst.start p = .finished (.success {}) {} := by
      simp [Engine.start, hu, hinitial]
    refine ⟨0, {}, {}, fun fuel _ => ?_, ⟨p.initial, .nil _, hinitial⟩, fun os s _ _ => Nat.zero_le _⟩
    rw [Engine.search, hstart, Engine.run]
  · have hstart : Engine.breadthFirst.start p =
        .running { space := .new Situation.hash p.initial, frontier := [0] } := by
      simp [Engine.start, hu, hinitial]
    have hlevel := Search.level_new (Bool.eq_false_iff.mpr hinitial)
    obtain ⟨plan, statistics, hrun, hshortest⟩ := hlevel.run ha hgoal (Nat.le_add_left _ 0)
    refine ⟨{u | ∃ e, p.Distance u e ∧ e < a}.ncard, plan, statistics, fun fuel hfuel => ?_, hshortest⟩
    rw [Engine.search, hstart]
    exact Engine.run_of_le hrun hfuel

/-- Each step up may come after another climb, so ever more tasks can be left to do. -/
def climbDomain : Definition.Domain where
  name := "climb"
  predicates := [⟨"up", []⟩]
  tasks := [⟨"climb", []⟩]
  actions := [{ name := "step", effects := [.add ⟨"up", []⟩] }]
  methods := [
    { name := "further", task := ⟨"climb", []⟩,
      network := .ordered [{ task := ⟨"climb", []⟩ }, { task := ⟨"step", []⟩ }] },
    { name := "rest", task := ⟨"climb", []⟩ }]

def climbProblem : Definition.Problem where
  name := "one step"
  domain := "climb"
  htn := { subtasks := [{ task := ⟨"climb", []⟩ }] }
  goal := [.atom ⟨"up", []⟩]

def climbPlan : Plan := ⟨[.method 0, .method 1, .action 0]⟩

theorem breadthFirst_finds_shortest_climb : ∃ P, ground climbDomain climbProblem = .ok P ∧
    P.unsolvable? = none ∧ (∃ g, P.Reachable g ∧ P.isGoal g = true) ∧
    ∃ n plan statistics,
      (∀ fuel ≥ n, Engine.breadthFirst.search P (fun _ => none) fuel = some (.success plan, statistics)) ∧
      plan.steps.length ≤ 3 := by
  obtain ⟨P, hP, hu, hvalid⟩ : ∃ P, ground climbDomain climbProblem = .ok P ∧
      P.unsolvable? = none ∧ P.validate climbPlan = .ok () := exists_ground_of_any (by decide +kernel)
  obtain ⟨p, hp, rfl⟩ := wellFormed_of_ground hP
  obtain ⟨-, g, hreplay, hgoal⟩ := EncodedProblem.validate_eq_ok.mp hvalid
  obtain ⟨hrun, -⟩ := EncodedProblem.run_of_replay (GroundProblem.complete_ofGround hp) hreplay
  obtain ⟨n, plan, statistics, hsearch, -, hleast⟩ := Engine.breadthFirst_finds_shortest hu ⟨_, hrun⟩ hgoal
  exact ⟨_, hP, hu, ⟨g, ⟨_, hrun⟩, hgoal⟩, n, plan, statistics, hsearch, hleast _ g hrun hgoal⟩

end HtnPlanner
