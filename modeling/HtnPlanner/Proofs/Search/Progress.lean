import HtnPlanner.Proofs.Search.Space
import HtnPlanner.Search.Engine

/-!
One step of a search. What is stored is a forest; a node that left the frontier has all its successors
stored and is no goal.
-/

namespace HtnPlanner.Search

open SearchSpace

variable {p : EncodedProblem} {s t : Search} {parent : Nat}

/-- `t` has all nodes of `s` and after them the nodes `ids`, of which none was stored before. -/
structure Grows (s t : Search) (ids : List Nat) : Prop where
  frontier : t.frontier = s.frontier
  kept : ∀ {id : Nat} {n : Node}, s.space.nodes[id]? = some n → t.space.nodes[id]? = some n
  size : t.space.nodes.size = s.space.nodes.size + ids.length
  mem : ∀ {id : Nat}, id ∈ ids ↔ s.space.nodes.size ≤ id ∧ id < t.space.nodes.size

theorem Grows.stored (h : Grows s t ids) {u : Situation} (hu : s.space.Stored u) : t.space.Stored u := by
  obtain ⟨id, n, hn, rfl⟩ := hu
  exact ⟨id, n, h.kept hn, rfl⟩

theorem Grows.refl (s : Search) : Grows s s [] :=
  ⟨rfl, id, by simp, by simp⟩

theorem Grows.trans {u : Search} {ids ids' : List Nat} (h : Grows s t ids) (h' : Grows t u ids') :
    Grows s u (ids ++ ids') := by
  refine ⟨h'.frontier.trans h.frontier, fun hn => h'.kept (h.kept hn), ?_, fun {id} => ?_⟩
  · rw [h'.size, h.size, List.length_append, Nat.add_assoc]
  · have hsize := h.size
    have hsize' := h'.size
    rw [List.mem_append, h.mem, h'.mem]
    omega

/-- What storing the successors `cs` of a node adds: the new nodes come in order and from this node, and every
successor counts as a new node or as a duplicate. -/
structure Stores (parent : Nat) (cs : List Successor) (s t : Search) (ids : List Nat) : Prop
    extends Grows s t ids where
  ids_eq : ids = List.range' s.space.nodes.size ids.length
  origin : ∀ {id : Nat} {n : Node}, t.space.nodes[id]? = some n →
    s.space.nodes[id]? = some n ∨ ∃ o, n.origin = some (parent, o)
  expanded : t.statistics.expanded = s.statistics.expanded
  generated : t.statistics.generated = s.statistics.generated + ids.length
  counted : t.statistics.generated + t.statistics.duplicates =
    s.statistics.generated + s.statistics.duplicates + cs.length
  actions : t.statistics.actions = s.statistics.actions
  methods : t.statistics.methods = s.statistics.methods

theorem Stores.refl (parent : Nat) (s : Search) : Stores parent [] s s [] :=
  ⟨Grows.refl s, rfl, Or.inl, rfl, rfl, rfl, rfl, rfl⟩

theorem Stores.trans {u : Search} {ids ids' : List Nat} {cs cs' : List Successor}
    (h : Stores parent cs s t ids) (h' : Stores parent cs' t u ids') :
    Stores parent (cs ++ cs') s u (ids ++ ids') := by
  refine ⟨h.toGrows.trans h'.toGrows, ?_, fun hn => ?_, h'.expanded.trans h.expanded, ?_, ?_,
    h'.actions.trans h.actions, h'.methods.trans h.methods⟩
  · rw [List.length_append, ← List.range'_append_1, ← h.size, ← h.ids_eq, ← h'.ids_eq]
  · rcases h'.origin hn with hn | hn
    · exact h.origin hn
    · exact Or.inr hn
  · rw [h'.generated, h.generated, List.length_append, Nat.add_assoc]
  · rw [h'.counted, h.counted, List.length_append, Nat.add_assoc]

/-- A successor that is stored already counts as a duplicate, any other becomes a new node. -/
theorem store_cases (h : s.space.Indexed) (parent : Nat) (c : Successor) :
    s.space.Stored c.situation ∧ s.store parent c = (none,
      { s with statistics := { s.statistics with duplicates := s.statistics.duplicates + 1 } }) ∨
    ¬ s.space.Stored c.situation ∧ s.store parent c = (some s.space.nodes.size,
      { s with
        space := s.space.push ⟨c.situation, some (parent, c.operator)⟩
        statistics := { s.statistics with generated := s.statistics.generated + 1 } }) := by
  rw [store, SearchSpace.insert]
  cases hf : s.space.find? c.situation with
  | some id => exact Or.inl ⟨⟨id, exists_of_find? hf⟩, rfl⟩
  | none => exact Or.inr ⟨h.find?_eq_none_iff.mp hf, rfl⟩

theorem store_stores (h : s.space.Indexed) (parent : Nat) (c : Successor) :
    Stores parent [c] s (s.store parent c).2 (s.store parent c).1.toList := by
  rcases store_cases h parent c with ⟨-, hstore⟩ | ⟨-, hstore⟩
  · rw [hstore]
    exact ⟨⟨rfl, id, rfl, by simp⟩, rfl, Or.inl, rfl, rfl, rfl, rfl, rfl⟩
  · rw [hstore]
    have hsize : ∀ n, (s.space.push n).nodes.size = s.space.nodes.size + 1 := by simp [push]
    refine ⟨⟨rfl, fun hn => getElem?_push_eq_some.mpr (Or.inl hn), hsize _, fun {id} => ?_⟩, rfl,
      fun hn => ?_, rfl, rfl, ?_, rfl, rfl⟩
    · simp only [Option.toList_some, List.mem_singleton, hsize]
      omega
    · rcases getElem?_push_eq_some.mp hn with hn | ⟨-, rfl⟩
      · exact Or.inl hn
      · exact Or.inr ⟨c.operator, rfl⟩
    · simp only [List.length_singleton]
      omega

theorem store_spec (h : Forest p s.space) {m : Node} (hm : s.space.nodes[parent]? = some m)
    {c : Successor} (hc : c ∈ p.successors m.situation) :
    Forest p (s.store parent c).2.space ∧
      Stores parent [c] s (s.store parent c).2 (s.store parent c).1.toList ∧
      (s.store parent c).2.space.Stored c.situation ∧
      ∀ id, (s.store parent c).1 = some id →
        ∃ n : Node, (s.store parent c).2.space.nodes[id]? = some n ∧ n.situation = c.situation := by
  have hstores := store_stores h.toIndexed parent c
  rcases store_cases h.toIndexed parent c with ⟨hold, hstore⟩ | ⟨hnew, hstore⟩
  · rw [hstore] at hstores ⊢
    exact ⟨h, hstores, hold, by simp⟩
  · rw [hstore] at hstores ⊢
    refine ⟨h.push hm hc hnew, hstores, stored_push.mpr (Or.inr rfl), fun id hid => ?_⟩
    obtain rfl : s.space.nodes.size = id := Option.some.inj hid
    exact ⟨_, getElem?_push_eq_some.mpr (Or.inr ⟨rfl, rfl⟩), rfl⟩

theorem storeAll_spec (h : Forest p s.space) {m : Node} (hm : s.space.nodes[parent]? = some m)
    {cs : List Successor} (hcs : ∀ c ∈ cs, c ∈ p.successors m.situation) :
    Forest p (s.storeAll parent cs).2.space ∧
      Stores parent cs s (s.storeAll parent cs).2 (s.storeAll parent cs).1 ∧
      ∀ c ∈ cs, (s.storeAll parent cs).2.space.Stored c.situation := by
  induction cs generalizing s with
  | nil => exact ⟨h, Stores.refl parent s, by simp⟩
  | cons c cs ih =>
      obtain ⟨hforest, hstores, hstored, -⟩ := store_spec h hm (hcs c List.mem_cons_self)
      obtain ⟨hforest', hstores', hstored'⟩ :=
        ih hforest (hstores.kept hm) fun d hd => hcs d (List.mem_cons_of_mem c hd)
      refine ⟨hforest', hstores.trans hstores', fun d hd => ?_⟩
      rcases List.mem_cons.mp hd with rfl | hd
      · exact hstores'.stored hstored
      · exact hstored' d hd

theorem store_frontier (s : Search) (f : List Nat) (parent : Nat) (c : Successor) :
    ({ s with frontier := f }.store parent c) =
      ((s.store parent c).1, { (s.store parent c).2 with frontier := f }) := by
  rcases hi : s.space.insert ⟨c.situation, some (parent, c.operator)⟩ with ⟨⟨id, _ | _⟩, space⟩
  · simp [store, hi]
  · simp [store, hi]

theorem storeAll_frontier (s : Search) (f : List Nat) (parent : Nat) (cs : List Successor) :
    ({ s with frontier := f }.storeAll parent cs) =
      ((s.storeAll parent cs).1, { (s.storeAll parent cs).2 with frontier := f }) := by
  induction cs generalizing s with
  | nil => rfl
  | cons c cs ih => simp only [storeAll, store_frontier, ih]

/-- Queueing goes on if none of the new nodes is a goal. Otherwise it ends with the plan to the first that is
one, after storing the successors up to it. -/
theorem enqueue_spec (h : Forest p s.space) {m : Node} (hm : s.space.nodes[parent]? = some m)
    {cs : List Successor} (hcs : ∀ c ∈ cs, c ∈ p.successors m.situation) :
    (enqueue p parent s cs = .running { (s.storeAll parent cs).2 with
        frontier := s.frontier ++ (s.storeAll parent cs).1 } ∧
      ∀ id ∈ (s.storeAll parent cs).1, ∀ n : Node,
        (s.storeAll parent cs).2.space.nodes[id]? = some n → p.isGoal n.situation = false) ∨
    ∃ (ds : List Successor) (id : Nat) (n : Node), ds <+: cs ∧
      (s.storeAll parent ds).2.space.nodes[id]? = some n ∧ p.isGoal n.situation = true ∧
      enqueue p parent s cs = .finished (.success ((s.storeAll parent ds).2.space.planTo id))
        (s.storeAll parent ds).2.statistics := by
  induction cs generalizing s with
  | nil => exact Or.inl ⟨by simp [enqueue, storeAll], by simp [storeAll]⟩
  | cons c cs ih =>
      obtain ⟨hforest, hgrows, -, hnode⟩ := store_spec h hm (hcs c List.mem_cons_self)
      have hrest : ∀ d ∈ cs, d ∈ p.successors m.situation := fun d hd => hcs d (List.mem_cons_of_mem c hd)
      rcases hstore : s.store parent c with ⟨_ | id, t⟩ <;> rw [hstore] at hforest hgrows hnode
      · have hfrontier : t.frontier = s.frontier := hgrows.frontier
        rcases ih hforest (hgrows.kept hm) hrest with hrun | ⟨ds, id, n, hds, hn, hgoal, hdone⟩
        · left
          simpa [enqueue, storeAll, hstore, hfrontier] using hrun
        · exact Or.inr ⟨c :: ds, id, n, List.cons_prefix_cons.mpr ⟨rfl, hds⟩, by simpa [storeAll, hstore] using hn,
            hgoal, by simpa [enqueue, storeAll, hstore] using hdone⟩
      · obtain ⟨n, hn, hs⟩ := hnode id rfl
        by_cases hgoal : p.isGoal c.situation = true
        · refine Or.inr ⟨[c], id, n, List.cons_prefix_cons.mpr ⟨rfl, List.nil_prefix⟩, ?_, hs ▸ hgoal, ?_⟩
          · simpa [storeAll, hstore] using hn
          · simp [enqueue, storeAll, hstore, hgoal]
        · have hfrontier : t.frontier = s.frontier := hgrows.frontier
          have hstep : enqueue p parent s (c :: cs) =
              enqueue p parent { t with frontier := s.frontier ++ [id] } cs := by
            simp [enqueue, hstore, hgoal, hfrontier]
          have hi := ih (s := { t with frontier := s.frontier ++ [id] }) hforest (hgrows.kept hm) hrest
          simp only [storeAll_frontier] at hi
          rw [hstep]
          rcases hi with ⟨hrun, hnew⟩ | ⟨ds, j, k, hds, hk, hgoal', hdone⟩
          · refine Or.inl ⟨by simpa [storeAll, hstore] using hrun, ?_⟩
            simp only [storeAll, hstore, Option.toList_some, List.singleton_append, List.mem_cons]
            rintro j (rfl | hj) k hk
            · obtain ⟨-, hgrows', -⟩ := storeAll_spec hforest (hgrows.kept hm) hrest
              have hkn : k = n := Option.some.inj (hk.symm.trans (hgrows'.kept hn))
              rw [hkn, hs]
              exact Bool.eq_false_iff.mpr hgoal
            · exact hnew j hj k hk
          · exact Or.inr ⟨c :: ds, j, k, List.cons_prefix_cons.mpr ⟨rfl, hds⟩, by simpa [storeAll, hstore] using hk,
              hgoal', by simpa [storeAll, hstore] using hdone⟩

end HtnPlanner.Search
