import HtnPlanner.Proofs.Encoded.Inheritance

/-!
Initial tasks that cannot be achieved are taken out of the closed order one after the other, from the last on. What is
left is the order that there was between the others, also where it went through those that were taken out.
-/

namespace HtnPlanner

open Relation

/-! ### Taking positions out, from the last on -/

section

variable {α β : Type} (p : α → Bool) (l : List α)

theorem positions_cons (a : α) :
    positions p (a :: l) = (if p a then [0] else []) ++ (positions p l).map (· + 1) := by
  have hrest : ((l.zipIdx 1).filter (p ·.1)).map (·.2) = (positions p l).map (· + 1) := by
    rw [positions, List.zipIdx_succ, List.filter_map, List.map_map, List.map_map]
    rfl
  rw [positions, List.zipIdx_cons, List.filter_cons]
  split
  · rw [List.map_cons, hrest]
    rfl
  · exact hrest

theorem foldl_eraseIdx_map_succ (ks : List Nat) (a : α) (l : List α) :
    (ks.map (· + 1)).foldl List.eraseIdx (a :: l) = a :: ks.foldl List.eraseIdx l := by
  induction ks generalizing l with
  | nil => rfl
  | cons k ks ih => exact ih (l.eraseIdx k)

theorem foldl_eraseIdx_positions : (positions p l).reverse.foldl List.eraseIdx l = l.filter fun a => !p a := by
  induction l with
  | nil => rfl
  | cons a l ih =>
      rw [positions_cons, List.reverse_append, List.foldl_append, ← List.map_reverse, foldl_eraseIdx_map_succ, ih]
      cases h : p a <;> simp [h]

theorem map_foldl_eraseIdx (f : α → β) (ks : List Nat) :
    (ks.foldl List.eraseIdx l).map f = ks.foldl List.eraseIdx (l.map f) := by
  induction ks generalizing l with
  | nil => rfl
  | cons k ks ih => rw [List.foldl_cons, List.foldl_cons, ih, List.eraseIdx_map]

theorem foldl_eraseIdx_range :
    (positions p l).reverse.foldl List.eraseIdx (List.range l.length) = positions (fun a => !p a) l := by
  have hzip : positions p l = positions (p ∘ Prod.fst) l.zipIdx := by
    rw [← positions_map, List.zipIdx_map_fst]
  have hrange : List.range l.length = l.zipIdx.map Prod.snd := by
    rw [List.zipIdx_map_snd, List.range_eq_range']
  rw [hrange, hzip, ← map_foldl_eraseIdx, foldl_eraseIdx_positions]
  rfl

end

namespace FinRel

/-- Number `i` of `q` stands for number `os[i]` of `r`, and is related to the same. -/
structure Restricts (r : FinRel) (os : List Nat) (q : FinRel) : Prop where
  size : q.size = os.length
  holds : ∀ i j, q.holds i j = true ↔ ∃ a b, os[i]? = some a ∧ os[j]? = some b ∧ r.holds a b = true

namespace Restricts

variable {r q : FinRel} {os : List Nat}

theorem range (hlt : ∀ i j, r.holds i j = true → j < r.size) : r.Restricts (List.range r.size) r := by
  refine ⟨List.length_range.symm, fun i j => ⟨fun hij => ?_, ?_⟩⟩
  · exact ⟨i, j, List.getElem?_range (lt_size_of_holds hij), List.getElem?_range (hlt i j hij), hij⟩
  · rintro ⟨a, b, ha, hb, hab⟩
    obtain ⟨hi, rfl⟩ := List.getElem?_eq_some_iff.mp ha
    obtain ⟨hj, rfl⟩ := List.getElem?_eq_some_iff.mp hb
    rwa [List.getElem_range, List.getElem_range] at hab

theorem erase (h : r.Restricts os q) {t : Nat} (ht : t < os.length) : r.Restricts (os.eraseIdx t) (q.erase t) := by
  have hlength : (os.eraseIdx t).length = q.size - 1 := by rw [h.size, List.length_eraseIdx_of_lt ht]
  have hlt : ∀ {k c}, os[skip t k]? = some c → k < q.size - 1 := fun hk => by
    rw [← hlength]
    exact (List.getElem?_eq_some_iff.mp ((getElem?_eraseIdx_eq os t _).trans hk)).1
  refine ⟨(size_erase q t).trans hlength.symm, fun i j => ?_⟩
  rw [FinRel.erase, holds_ofPred, Bool.and_eq_true, Bool.and_eq_true, decide_eq_true_eq, decide_eq_true_eq, h.holds,
    getElem?_eraseIdx_eq, getElem?_eraseIdx_eq]
  constructor
  · exact fun hij => hij.2.2
  · rintro ⟨a, b, ha, hb, hab⟩
    exact ⟨hlt ha, hlt hb, a, b, ha, hb, hab⟩

/-- From the last on, as all that comes after a number moves down with it. -/
theorem foldl_erase (h : r.Restricts os q) {ks : List Nat} (hks : ks.Pairwise (· > ·)) (hlt : ∀ k ∈ ks, k < os.length) :
    r.Restricts (ks.foldl List.eraseIdx os) (ks.foldl FinRel.erase q) := by
  induction ks generalizing os q with
  | nil => exact h
  | cons k ks ih =>
      obtain ⟨hfirst, hrest⟩ := List.pairwise_cons.mp hks
      have hk := hlt k List.mem_cons_self
      refine ih (h.erase hk) hrest fun j hj => ?_
      have hj := hfirst j hj
      rw [List.length_eraseIdx_of_lt hk]
      omega

end Restricts

/-- The positions with `p` are taken out of a closed relation on the members of a list. -/
theorem restricts_ofPairs {α : Type} (p : α → Bool) (l : List α) {pairs : List (Nat × Nat)}
    (h : ∀ q ∈ pairs, q.1 < l.length ∧ q.2 < l.length) :
    (ofPairs l.length pairs).Restricts (positions (fun a => !p a) l)
      ((positions p l).reverse.foldl FinRel.erase (ofPairs l.length pairs)) := by
  have hlt : ∀ i j, (ofPairs l.length pairs).holds i j = true → j < (ofPairs l.length pairs).size := by
    intro i j hij
    rw [holds_ofPairs fun q hq => (h q hq).1] at hij
    obtain ⟨k, -, hkj⟩ := TransGen.tail'_iff.mp hij
    rw [size_ofPairs]
    exact (h _ hkj).2
  have hdescending : (positions p l).reverse.Pairwise (· > ·) := List.pairwise_reverse.mpr (pairwise_positions p l)
  have hrun := (Restricts.range hlt).foldl_erase hdescending fun k hk => ?_
  · rwa [size_ofPairs, foldl_eraseIdx_range] at hrun
  · obtain ⟨a, ha, -⟩ := mem_positions.mp (List.mem_reverse.mp hk)
    rw [List.length_range, size_ofPairs]
    exact (List.getElem?_eq_some_iff.mp ha).1

end FinRel

namespace GroundProblem

variable {p : GroundProblem}

theorem isSome_initialTasks (h : p.resolved.length = p.initialTasks.length) :
    (EncodedProblem.ofGround p).initialTasks.map (·.isSome) = p.resolved := by
  have hsnd : (p.initialTasks.zip p.resolved).map Prod.snd = p.resolved := List.map_snd_zip (Nat.le_of_eq h)
  conv => rhs; rw [← hsnd]
  rw [EncodedProblem.ofGround, List.map_map]
  refine List.map_congr_left fun q ht => ?_
  obtain ⟨t, r⟩ := q
  cases r with
  | false => rfl
  | true => simp [idxOf?_eq_some (mem_relevantTasks_of_resolved ht)]

theorem length_initialTasks (h : p.resolved.length = p.initialTasks.length) :
    (EncodedProblem.ofGround p).initialTasks.length = p.initialTasks.length := by
  rw [← h, ← isSome_initialTasks h, List.length_map]

theorem getElem?_resolved (h : p.resolved.length = p.initialTasks.length) (o : Nat) :
    p.resolved[o]? = (EncodedProblem.ofGround p).initialTasks[o]?.map (·.isSome) := by
  rw [← isSome_initialTasks h, List.getElem?_map]

/-- The task of an index is the initial task that got it. -/
theorem ground_initialTasks {o k : Nat} (hk : (EncodedProblem.ofGround p).initialTasks[o]? = some (some k)) :
    (EncodedProblem.ofGround p).tasks[k]?.map (·.ground) = p.initialTasks[o]? := by
  rw [EncodedProblem.ofGround, List.getElem?_map] at hk
  obtain ⟨⟨t, r⟩, htr, hk⟩ := Option.map_eq_some_iff.mp hk
  rw [Option.ite_none_right_eq_some] at hk
  rw [(List.getElem?_zip_eq_some.mp htr).1, EncodedProblem.ofGround, List.getElem?_map, getElem?_of_idxOf? hk.2]
  rfl

theorem ground_initialNetwork (p : GroundProblem) :
    (EncodedProblem.ofGround p).initialNetwork.tasks.map
        (fun k => (EncodedProblem.ofGround p).tasks[k]?.map (·.ground)) =
      (positions (·.isSome) (EncodedProblem.ofGround p).initialTasks).map (p.initialTasks[·]?) := by
  have hget := map_getElem?_positions (·.isSome) (EncodedProblem.ofGround p).initialTasks
  have hsome : ((EncodedProblem.ofGround p).initialTasks.filterMap id).map some =
      (EncodedProblem.ofGround p).initialTasks.filter (·.isSome) := by
    rw [List.map_filterMap_some_eq_filter_map_isSome, List.map_id]
  rw [← hsome] at hget
  have hground : ∀ o ∈ positions (·.isSome) (EncodedProblem.ofGround p).initialTasks,
      p.initialTasks[o]? = (EncodedProblem.ofGround p).initialTasks[o]?.join.bind
        ((EncodedProblem.ofGround p).tasks[·]?.map (·.ground)) := by
    intro o ho
    obtain ⟨t, ht, hsome⟩ := mem_positions.mp ho
    obtain ⟨k, rfl⟩ := Option.isSome_iff_exists.mp hsome
    rw [ht]
    exact (ground_initialTasks ht).symm
  rw [List.map_congr_left hground]
  have hmap := congrArg (List.map fun t : Option (Option Nat) =>
    t.join.bind ((EncodedProblem.ofGround p).tasks[·]?.map (·.ground))) hget
  rw [List.map_map, List.map_map, List.map_map] at hmap
  exact hmap.symm

/-- The encoded initial network has the achievable initial tasks as they were ordered. It lists them as the problem does,
and one comes before another just if there was a way from the first to the second through the declared pairs, be it
through tasks that are not achievable or round in a circle. -/
theorem initialNetwork_restricts_order (hresolved : p.resolved.length = p.initialTasks.length)
    (horder : ∀ q ∈ p.initialOrder, q.1 < p.initialTasks.length ∧ q.2 < p.initialTasks.length) :
    ∃ kept : List Nat, kept.Pairwise (· < ·) ∧ (∀ o : Nat, o ∈ kept ↔ p.resolved[o]? = some true) ∧
      (EncodedProblem.ofGround p).initialNetwork.tasks.map
        (fun k => (EncodedProblem.ofGround p).tasks[k]?.map (·.ground)) = kept.map (p.initialTasks[·]?) ∧
      (EncodedProblem.ofGround p).initialNetwork.order.size = kept.length ∧
      (∀ i j, (EncodedProblem.ofGround p).initialNetwork.order.holds i j = true ↔
        ∃ a b, kept[i]? = some a ∧ kept[j]? = some b ∧ TransGen (fun a b => (a, b) ∈ p.initialOrder) a b) ∧
      (EncodedProblem.ofGround p).initialTasks.length = p.initialTasks.length ∧
      ∀ o : Nat, (EncodedProblem.ofGround p).initialTasks[o]? = some none ↔ p.resolved[o]? = some false := by
  have hlength := length_initialTasks hresolved
  have hrestricts := FinRel.restricts_ofPairs (·.isNone) (EncodedProblem.ofGround p).initialTasks (by rwa [hlength])
  simp only [Option.not_isNone] at hrestricts
  have hclosed : ∀ a b, (FinRel.ofPairs (EncodedProblem.ofGround p).initialTasks.length p.initialOrder).holds a b = true ↔
      TransGen (fun a b => (a, b) ∈ p.initialOrder) a b := by
    rw [hlength]
    exact FinRel.holds_ofPairs fun q hq => (horder q hq).1
  refine ⟨positions Option.isSome (EncodedProblem.ofGround p).initialTasks, pairwise_positions _ _, fun o => ?_,
    ground_initialNetwork p, hrestricts.size, fun i j => ?_, hlength, fun o => ?_⟩
  · rw [mem_positions, getElem?_resolved hresolved, Option.map_eq_some_iff]
  · simp only [← hclosed]
    exact hrestricts.holds i j
  · rw [getElem?_resolved hresolved, Option.map_eq_some_iff]
    simp

end GroundProblem

/-- There is a method for one of the tasks only. -/
def watchDomain : Definition.Domain where
  name := "watch"
  tasks := [⟨"round", []⟩, ⟨"rest", []⟩]
  actions := [{ name := "walk" }, { name := "look" }]
  methods := [{ name := "short", task := ⟨"round", []⟩, network := .ordered [{ task := ⟨"walk", []⟩ }] }]

/-- The rest, which cannot be had, comes between a round and a look. Two walks are each before the other. -/
def watchProblem : Definition.Problem where
  name := "night watch"
  domain := "watch"
  htn := {
    subtasks := [⟨some "round", ⟨"round", []⟩⟩, ⟨some "rest", ⟨"rest", []⟩⟩, ⟨some "look", ⟨"look", []⟩⟩,
      ⟨some "there", ⟨"walk", []⟩⟩, ⟨some "back", ⟨"walk", []⟩⟩]
    ordering := [("round", "rest"), ("rest", "look"), ("there", "back"), ("back", "there")] }

theorem initialNetwork_restricts_order_watch : ∃ L, LiftedProblem.ofDefinitions watchDomain watchProblem = .ok L ∧
    (GroundProblem.ofLifted L).resolved = [true, false, true, true, true] ∧
    (GroundProblem.ofLifted L).resolved.length = (GroundProblem.ofLifted L).initialTasks.length ∧
    (∀ q ∈ (GroundProblem.ofLifted L).initialOrder, q.1 < (GroundProblem.ofLifted L).initialTasks.length ∧
      q.2 < (GroundProblem.ofLifted L).initialTasks.length) ∧
    (EncodedProblem.ofGround (.ofLifted L)).initialNetwork.order.pairs = [(0, 1), (2, 2), (2, 3), (3, 2), (3, 3)] ∧
    ∃ kept : List Nat, (∀ o : Nat, o ∈ kept ↔ (GroundProblem.ofLifted L).resolved[o]? = some true) ∧
      ∀ i j, (EncodedProblem.ofGround (.ofLifted L)).initialNetwork.order.holds i j = true ↔
        ∃ a b, kept[i]? = some a ∧ kept[j]? = some b ∧
          TransGen (fun a b => (a, b) ∈ (GroundProblem.ofLifted L).initialOrder) a b := by
  obtain ⟨L, hL, hresolved, hpairs⟩ : ∃ L, LiftedProblem.ofDefinitions watchDomain watchProblem = .ok L ∧
      (GroundProblem.ofLifted L).resolved = [true, false, true, true, true] ∧
      (EncodedProblem.ofGround (.ofLifted L)).initialNetwork.order.pairs = [(0, 1), (2, 2), (2, 3), (3, 2), (3, 3)] :=
    exists_ok_of_any (by decide +kernel)
  have hwell := GroundProblem.wellFormed_ofLifted (LiftedProblem.wellFormed_of_ofDefinitions hL)
  obtain ⟨kept, -, hkept, -, -, horder, -⟩ :=
    GroundProblem.initialNetwork_restricts_order hwell.resolved hwell.initialOrder
  exact ⟨L, hL, hresolved, hwell.resolved, hwell.initialOrder, hpairs, kept, hkept, horder⟩

end HtnPlanner
