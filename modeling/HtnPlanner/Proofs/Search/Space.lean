import HtnPlanner.Proofs.Search.Run
import HtnPlanner.Search.Space
import Mathlib.Tactic.Common

/-!
The stored nodes form a tree without duplicates: a node that comes up again is found, whatever the
hash, and the way back from a node to the root is a run.
-/

namespace HtnPlanner.SearchSpace

variable {space : SearchSpace}

def Stored (space : SearchSpace) (s : Situation) : Prop :=
  ∃ (id : Nat) (n : Node), space.nodes[id]? = some n ∧ n.situation = s

/-- A bucket holds the nodes of its hash, and no situation is stored twice. -/
structure Indexed (space : SearchSpace) : Prop where
  bucket : ∀ h id, id ∈ space.buckets.getD h [] ↔
    ∃ n : Node, space.nodes[id]? = some n ∧ space.hash n.situation = h
  distinct : ∀ {i j : Nat} {n m : Node}, space.nodes[i]? = some n → space.nodes[j]? = some m →
    n.situation = m.situation → i = j

theorem any_situation_iff {s : Situation} {id : Nat} :
    (space.nodes[id]?.any fun n => n.situation == s) = true ↔
      ∃ n : Node, space.nodes[id]? = some n ∧ n.situation = s := by
  cases space.nodes[id]? <;> simp

theorem exists_of_find? {s : Situation} {id : Nat} (h : space.find? s = some id) :
    ∃ n : Node, space.nodes[id]? = some n ∧ n.situation = s := by
  have hany : (space.nodes[id]?.any fun n => n.situation == s) = true := by
    rw [find?] at h
    simpa using List.find?_some h
  exact any_situation_iff.mp hany

theorem Indexed.find?_eq_some_iff (h : space.Indexed) {s : Situation} {id : Nat} :
    space.find? s = some id ↔ ∃ n : Node, space.nodes[id]? = some n ∧ n.situation = s := by
  constructor
  · exact exists_of_find?
  · rintro ⟨n, hn, rfl⟩
    have hmem : id ∈ space.bucket n.situation := (h.bucket _ _).mpr ⟨n, hn, rfl⟩
    cases hf : space.find? n.situation with
    | none =>
        rw [find?] at hf
        exact absurd (any_situation_iff.mpr ⟨n, hn, rfl⟩) (List.find?_eq_none.mp hf id hmem)
    | some j =>
        obtain ⟨m, hm, hms⟩ := exists_of_find? hf
        rw [h.distinct hm hn hms]

theorem Indexed.find?_eq_none_iff (h : space.Indexed) {s : Situation} :
    space.find? s = none ↔ ¬ space.Stored s := by
  rw [Option.eq_none_iff_forall_ne_some]
  constructor
  · rintro hn ⟨id, n, hs⟩
    exact hn id (h.find?_eq_some_iff.mpr ⟨n, hs⟩)
  · intro hn id hf
    obtain ⟨n, hs⟩ := h.find?_eq_some_iff.mp hf
    exact hn ⟨id, n, hs⟩

theorem getElem?_push_eq_some {n m : Node} {id : Nat} :
    (space.push n).nodes[id]? = some m ↔
      space.nodes[id]? = some m ∨ id = space.nodes.size ∧ n = m := by
  simp only [push, Array.getElem?_push]
  by_cases hid : id = space.nodes.size
  · subst hid
    simp
  · simp [hid]

theorem Indexed.push (h : space.Indexed) {n : Node} (hn : ¬ space.Stored n.situation) :
    (space.push n).Indexed := by
  refine ⟨fun k id => ?_, fun {i j a b} hi hj hab => ?_⟩
  · have hbuckets : id ∈ (space.push n).buckets.getD k [] ↔
        id ∈ space.buckets.getD k [] ∨ id = space.nodes.size ∧ space.hash n.situation = k := by
      rw [SearchSpace.push, Std.TreeMap.getD_insert]
      by_cases hk : space.hash n.situation = k
      · simp [SearchSpace.bucket, hk]
      · simp [hk]
    simp only [hbuckets, h.bucket, getElem?_push_eq_some, or_and_right, exists_or]
    exact or_congr_right ⟨fun ⟨hid, hk⟩ => ⟨n, ⟨hid, rfl⟩, hk⟩, fun ⟨_, ⟨hid, hm⟩, hk⟩ => ⟨hid, hm ▸ hk⟩⟩
  · rcases getElem?_push_eq_some.mp hi with hi | ⟨rfl, rfl⟩
    · rcases getElem?_push_eq_some.mp hj with hj | ⟨rfl, rfl⟩
      · exact h.distinct hi hj hab
      · exact absurd ⟨i, a, hi, hab⟩ hn
    · rcases getElem?_push_eq_some.mp hj with hj | ⟨rfl, -⟩
      · exact absurd ⟨j, b, hj, hab.symm⟩ hn
      · rfl

theorem Indexed.insert_stored (h : space.Indexed) {n m : Node} {id : Nat} (hm : space.nodes[id]? = some m)
    (hs : m.situation = n.situation) : space.insert n = ((id, false), space) := by
  rw [SearchSpace.insert, h.find?_eq_some_iff.mpr ⟨m, hm, hs⟩]

theorem Indexed.insert_new (h : space.Indexed) {n : Node} (hn : ¬ space.Stored n.situation) :
    space.insert n = ((space.nodes.size, true), space.push n) := by
  rw [SearchSpace.insert, h.find?_eq_none_iff.mpr hn]

theorem Indexed.insert (h : space.Indexed) (n : Node) : (space.insert n).2.Indexed := by
  by_cases hn : space.Stored n.situation
  · obtain ⟨id, m, hm, hs⟩ := hn
    rwa [h.insert_stored hm hs]
  · rw [h.insert_new hn]
    exact h.push hn

theorem indexed_empty (hash : Situation → Nat) : Indexed { hash } :=
  ⟨fun h id => by simp, fun hi => by simp at hi⟩

theorem new_eq_push (hash : Situation → Nat) (root : Situation) :
    new hash root = push { hash } { situation := root } := by
  have hnone : find? { hash } root = none :=
    (indexed_empty hash).find?_eq_none_iff.mpr fun ⟨_, _, h, _⟩ => by simp at h
  simp [new, insert, hnone]

theorem getElem?_new {hash : Situation → Nat} {root : Situation} {id : Nat} {n : Node} :
    (new hash root).nodes[id]? = some n ↔ id = 0 ∧ n = { situation := root } := by
  rw [new_eq_push, getElem?_push_eq_some]
  simp [eq_comm]

theorem size_new (hash : Situation → Nat) (root : Situation) : (new hash root).nodes.size = 1 := by
  simp [new_eq_push, push]

/-- The tree of a search: the origin of a node is an earlier node that it is a successor of. -/
structure Forest (p : EncodedProblem) (space : SearchSpace) : Prop extends Indexed space where
  root : space.Stored p.initial
  first : ∀ {id : Nat} {n : Node}, space.nodes[id]? = some n → n.origin = none → n.situation = p.initial
  later : ∀ {id parent : Nat} {n : Node} {o : Operator}, space.nodes[id]? = some n → n.origin = some (parent, o) →
    parent < id ∧ ∃ m : Node, space.nodes[parent]? = some m ∧ ⟨o, n.situation⟩ ∈ p.successors m.situation

variable {p : EncodedProblem}

theorem lt_size_of_getElem? {id : Nat} {n : Node} (h : space.nodes[id]? = some n) :
    id < space.nodes.size := by
  obtain ⟨hid, -⟩ := Array.getElem?_eq_some_iff.mp h
  exact hid

theorem situation_eq {id : Nat} {n : Node} (h : space.nodes[id]? = some n) :
    space.situation id = n.situation := by
  simp [situation, h]

theorem Indexed.situation_inj (h : space.Indexed) {i j : Nat} (hi : i < space.nodes.size)
    (hj : j < space.nodes.size) (hij : space.situation i = space.situation j) : i = j := by
  have hni := Array.getElem?_eq_getElem hi
  have hnj := Array.getElem?_eq_getElem hj
  rw [situation_eq hni, situation_eq hnj] at hij
  exact h.distinct hni hnj hij

theorem stored_push {n : Node} {s : Situation} :
    (space.push n).Stored s ↔ space.Stored s ∨ n.situation = s := by
  simp only [Stored, getElem?_push_eq_some, or_and_right, exists_or]
  exact or_congr_right ⟨fun ⟨_, _, ⟨_, hm⟩, hs⟩ => hm ▸ hs, fun hs => ⟨_, n, ⟨rfl, rfl⟩, hs⟩⟩

theorem forest_new (p : EncodedProblem) (hash : Situation → Nat) : Forest p (new hash p.initial) := by
  have hempty : ¬ Stored { hash } p.initial := fun ⟨_, _, h, _⟩ => by simp at h
  refine ⟨?_, ⟨0, _, getElem?_new.mpr ⟨rfl, rfl⟩, rfl⟩, fun hn _ => ?_, fun hn ho => ?_⟩
  · rw [new_eq_push]
    exact (indexed_empty hash).push hempty
  · rw [(getElem?_new.mp hn).2]
  · rw [(getElem?_new.mp hn).2] at ho
    exact absurd ho (by simp)

theorem Forest.push (h : Forest p space) {parent : Nat} {m : Node} {c : Successor}
    (hm : space.nodes[parent]? = some m) (hc : c ∈ p.successors m.situation)
    (hnew : ¬ space.Stored c.situation) :
    Forest p (space.push ⟨c.situation, some (parent, c.operator)⟩) := by
  refine ⟨h.toIndexed.push hnew, stored_push.mpr (Or.inl h.root), ?_, ?_⟩
  · intro id n hn hnone
    rcases getElem?_push_eq_some.mp hn with hn | ⟨-, rfl⟩
    · exact h.first hn hnone
    · exact absurd hnone (by simp)
  · intro id n parent' o hn ho
    rcases getElem?_push_eq_some.mp hn with hn | ⟨rfl, rfl⟩
    · obtain ⟨hlt, k, hk, hs⟩ := h.later hn ho
      exact ⟨hlt, k, getElem?_push_eq_some.mpr (Or.inl hk), hs⟩
    · obtain ⟨rfl, rfl⟩ := Prod.mk.inj (Option.some.inj ho)
      exact ⟨lt_size_of_getElem? hm, m, getElem?_push_eq_some.mpr (Or.inl hm), hc⟩

theorem Forest.insert (h : Forest p space) {parent : Nat} {m : Node} {c : Successor}
    (hm : space.nodes[parent]? = some m) (hc : c ∈ p.successors m.situation) :
    Forest p (space.insert ⟨c.situation, some (parent, c.operator)⟩).2 := by
  by_cases hnew : space.Stored c.situation
  · obtain ⟨id, n, hn, hs⟩ := hnew
    rwa [h.toIndexed.insert_stored hn hs]
  · rw [h.toIndexed.insert_new hnew]
    exact h.push hm hc hnew

/-- A run that only comes to situations that are stored. -/
inductive StoredRun (p : EncodedProblem) (space : SearchSpace) : Situation → List Operator → Situation → Prop
  | nil {s : Situation} (stored : space.Stored s) : StoredRun p space s [] s
  | cons {s t u : Situation} {o : Operator} {os : List Operator} (stored : space.Stored s)
      (first : ⟨o, t⟩ ∈ p.successors s) (rest : StoredRun p space t os u) : StoredRun p space s (o :: os) u

theorem StoredRun.concat {s t u : Situation} {o : Operator} {os : List Operator} (h : StoredRun p space s os t)
    (ht : ⟨o, u⟩ ∈ p.successors t) (hu : space.Stored u) : StoredRun p space s (os ++ [o]) u := by
  induction h with
  | nil stored => exact .cons stored ht (.nil hu)
  | cons stored first _ ih => exact .cons stored first (ih ht)

theorem StoredRun.run {s t : Situation} {os : List Operator} (h : StoredRun p space s os t) : p.Run s os t := by
  induction h with
  | nil _ => exact .nil _
  | cons _ first _ ih => exact .cons first ih

/-- Parents come earlier, so that the way to the root is found with the node's id as fuel. What the steps say of
a node follows from what they say of its parent. -/
theorem Forest.stepsTo?_eq (h : Forest p space) {Q : Nat → List Operator → Prop}
    (hroot : ∀ {id : Nat} {n : Node}, space.nodes[id]? = some n → n.origin = none → Q id [])
    (hlater : ∀ {id parent : Nat} {n : Node} {o : Operator} {os : List Operator}, space.nodes[id]? = some n →
      n.origin = some (parent, o) → Q parent os → Q id (os ++ [o]))
    {fuel id : Nat} {n : Node} (hn : space.nodes[id]? = some n) (hfuel : id < fuel) (steps : List Operator) :
    ∃ os, space.stepsTo? fuel id steps = some (os ++ steps) ∧ Q id os := by
  induction fuel generalizing id n steps with
  | zero => exact absurd hfuel (Nat.not_lt_zero id)
  | succ fuel ih =>
      cases ho : n.origin with
      | none => exact ⟨[], by simp [stepsTo?, hn, ho], hroot hn ho⟩
      | some origin =>
          obtain ⟨parent, o⟩ := origin
          obtain ⟨hlt, m, hm, -⟩ := h.later hn ho
          obtain ⟨os, hos, hparent⟩ := ih hm (by omega) (o :: steps)
          exact ⟨os ++ [o], by simp [stepsTo?, hn, ho, hos], hlater hn ho hparent⟩

/-- Induction from the root to a node, along the steps of the plan to it. -/
theorem Forest.planTo_induction (h : Forest p space) {Q : Nat → List Operator → Prop}
    (hroot : ∀ {id : Nat} {n : Node}, space.nodes[id]? = some n → n.origin = none → Q id [])
    (hlater : ∀ {id parent : Nat} {n : Node} {o : Operator} {os : List Operator}, space.nodes[id]? = some n →
      n.origin = some (parent, o) → Q parent os → Q id (os ++ [o]))
    {id : Nat} {n : Node} (hn : space.nodes[id]? = some n) : Q id (space.planTo id).steps := by
  obtain ⟨os, hos, hQ⟩ := h.stepsTo?_eq hroot hlater hn (lt_size_of_getElem? hn) []
  rw [List.append_nil] at hos
  have hplan : space.planTo id = ⟨os⟩ := by simp [planTo, planTo?, hos]
  rwa [hplan]

theorem Forest.planTo?_eq (h : Forest p space) {id : Nat} {n : Node} (hn : space.nodes[id]? = some n) :
    space.planTo? id = some (space.planTo id) := by
  obtain ⟨os, hos, -⟩ := h.stepsTo?_eq (Q := fun _ _ => True) (fun _ _ => trivial) (fun _ _ _ => trivial) hn
    (lt_size_of_getElem? hn) []
  rw [planTo, planTo?, hos]
  rfl

theorem Forest.storedRun_planTo (h : Forest p space) {id : Nat} {n : Node} (hn : space.nodes[id]? = some n) :
    StoredRun p space p.initial (space.planTo id).steps n.situation := by
  rw [← situation_eq hn]
  refine h.planTo_induction (Q := fun id os => StoredRun p space p.initial os (space.situation id))
    (fun hn ho => ?_) (fun {id} _ _ _ _ hn ho hparent => ?_) hn
  · rw [situation_eq hn, h.first hn ho]
    exact .nil h.root
  · obtain ⟨-, m, hm, hs⟩ := h.later hn ho
    rw [situation_eq hm] at hparent
    rw [situation_eq hn]
    exact hparent.concat hs ⟨id, _, hn, rfl⟩

theorem Forest.run_planTo (h : Forest p space) {id : Nat} {n : Node} (hn : space.nodes[id]? = some n) :
    p.Run p.initial (space.planTo id).steps n.situation :=
  (h.storedRun_planTo hn).run

theorem Forest.reachable (h : Forest p space) {s : Situation} (hs : space.Stored s) : p.Reachable s := by
  obtain ⟨id, n, hn, rfl⟩ := hs
  exact ⟨_, h.run_planTo hn⟩

end HtnPlanner.SearchSpace
