import HtnPlanner.Proofs.Search.Answers

/-!
The spaces of both searches grow from the initial situation by successors, and in whatever has grown so there
is a way back from every node.
-/

namespace HtnPlanner

open SearchSpace

variable {e : Engine} {p : EncodedProblem} {s t : Search} {parent id : Nat} {m n : Node} {c : Successor}
  {cs : List Successor} {space : SearchSpace}

/-- The initial situation was stored, and one after the other successors of what was, each with the node that
it succeeds. -/
inductive EncodedProblem.Grown (p : EncodedProblem) : SearchSpace → Prop
  | new (hash : Situation → Nat) : Grown p (.new hash p.initial)
  | insert {space : SearchSpace} {parent : Nat} {n : Node} {c : Successor} (grown : Grown p space)
      (stored : space.nodes[parent]? = some n) (successor : c ∈ p.successors n.situation) :
      Grown p (space.insert ⟨c.situation, some (parent, c.operator)⟩).2

/-- A search that the engine comes to, wherever a limit would have been exceeded. -/
inductive Engine.Visits (e : Engine) (p : EncodedProblem) : Search → Prop
  | start {s : Search} (started : e.start p = .running s) : Visits e p s
  | step {s t : Search} {exceeded : Option Limit} (visited : Visits e p s)
      (stepped : e.step p exceeded s = .running t) : Visits e p t

namespace EncodedProblem.Grown

theorem forest (h : p.Grown space) : Forest p space := by
  induction h with
  | new hash => exact forest_new p hash
  | insert _ stored successor ih => exact ih.insert stored successor

theorem store (h : p.Grown s.space) (hm : s.space.nodes[parent]? = some m) (hc : c ∈ p.successors m.situation) :
    p.Grown (s.store parent c).2.space := by
  have hinsert := h.insert hm hc
  rw [Search.store]
  rcases hi : s.space.insert ⟨c.situation, some (parent, c.operator)⟩ with ⟨⟨id, _ | _⟩, space⟩
  · rwa [hi] at hinsert
  · rwa [hi] at hinsert

theorem storeAll (h : p.Grown s.space) (hm : s.space.nodes[parent]? = some m)
    (hcs : ∀ c ∈ cs, c ∈ p.successors m.situation) : p.Grown (s.storeAll parent cs).2.space := by
  induction cs generalizing s with
  | nil => exact h
  | cons c cs ih =>
      have hc := hcs c List.mem_cons_self
      have hkept := (Search.store_spec h.forest hm hc).2.1.kept hm
      exact ih (h.store hm hc) hkept fun d hd => hcs d (List.mem_cons_of_mem c hd)

theorem stepDepthFirst (h : p.Grown s.space) (hs : s.Invariant .depthFirst p) {exceeded : Option Limit}
    (ht : Engine.stepDepthFirst p exceeded s = .running t) : p.Grown t.space := by
  rw [Engine.stepDepthFirst] at ht
  cases hf : s.frontier with
  | nil => simp [hf] at ht
  | cons id rest =>
      obtain ⟨n, hn⟩ := hs.node hf
      simp only [hf, situation_eq hn] at ht
      split at ht
      · simp at ht
      · cases exceeded with
        | some limit => simp at ht
        | none =>
            obtain rfl := Progress.running.inj ht
            exact storeAll (s := s.countExpanded (p.successors n.situation)) h hn fun c hc => hc

theorem stepBreadthFirst (h : p.Grown s.space) (hs : s.Invariant .breadthFirst p) {exceeded : Option Limit}
    (ht : Engine.stepBreadthFirst p exceeded s = .running t) : p.Grown t.space := by
  rw [Engine.stepBreadthFirst] at ht
  cases hf : s.frontier with
  | nil => simp [hf] at ht
  | cons id rest =>
      obtain ⟨n, hn⟩ := hs.node hf
      cases exceeded with
      | some limit => simp [hf] at ht
      | none =>
          simp only [hf, situation_eq hn] at ht
          let r := { s with frontier := rest }.countExpanded (p.successors n.situation)
          rcases Search.enqueue_spec (s := r) hs.forest hn fun c hc => hc with
            ⟨hrun, -⟩ | ⟨ds, id, n, -, -, -, hdone⟩
          · obtain rfl := Progress.running.inj (hrun.symm.trans ht)
            exact storeAll (s := r) h hn fun c hc => hc
          · cases hdone.symm.trans ht

end EncodedProblem.Grown

theorem Engine.Visits.invariant (h : e.Visits p s) : s.Invariant e p := by
  induction h with
  | @start s started =>
      rcases Engine.start_cases e p with ⟨-, hs⟩ | ⟨-, hs⟩ | ⟨hgoal, hs⟩
      · simp [hs] at started
      · simp [hs] at started
      · obtain rfl := Progress.running.inj (hs.symm.trans started)
        exact Search.invariant_new hgoal
  | @step s t exceeded _ stepped ih =>
      have hright := Engine.step_right ih exceeded
      rw [stepped] at hright
      exact hright.1

theorem Engine.Visits.grown (h : e.Visits p s) : p.Grown s.space := by
  induction h with
  | @start s started =>
      rcases Engine.start_cases e p with ⟨-, hs⟩ | ⟨-, hs⟩ | ⟨-, hs⟩
      · simp [hs] at started
      · simp [hs] at started
      · obtain rfl := Progress.running.inj (hs.symm.trans started)
        exact .new Situation.hash
  | @step s t exceeded visited stepped ih =>
      cases e with
      | depthFirst => exact ih.stepDepthFirst visited.invariant stepped
      | breadthFirst => exact ih.stepBreadthFirst visited.invariant stepped

end HtnPlanner
