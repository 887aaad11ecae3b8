import HtnPlanner.Proofs.Lifted.Run
import HtnPlanner.Proofs.Order.Closure
import Mathlib.Data.List.InsertIdx

/-!
A network of task indices stands for one of ground tasks, and taking a task out or putting subtasks in
its place is the same on either side.
-/

namespace HtnPlanner

open Relation

/-- The indices are those of the tasks, and the orders agree. -/
structure TaskNetwork.Encodes (tasks : List GroundTask) (n : TaskNetwork) (w : OrderedTasks) : Prop
    extends n.Ordered where
  indices : n.tasks = w.tasks.map tasks.idxOf
  known : ∀ t ∈ w.tasks, t ∈ tasks
  order : ∀ {i j : Nat}, i < w.tasks.length → j < w.tasks.length →
    (n.order.holds i j = true ↔ w.before i j)

namespace TaskNetwork.Encodes

variable {tasks : List GroundTask} {n : TaskNetwork} {w : OrderedTasks} {position : Nat}

theorem length (h : Encodes tasks n w) : n.tasks.length = w.tasks.length := by
  rw [h.indices, List.length_map]

theorem mem_first_iff (h : Encodes tasks n w) :
    position ∈ n.first ↔ position < w.tasks.length ∧ w.Next position := by
  have hsize : n.order.size = w.tasks.length := h.size.trans h.length
  rw [first, FinRel.mem_minimal, hsize]
  refine and_congr_right fun hposition => ⟨fun hfirst j hj hbefore => ?_, fun hnext j => ?_⟩
  · have hholds := (h.order hj hposition).mpr hbefore
    simp [hfirst j] at hholds
  · by_contra hholds
    have hholds : n.order.holds j position = true := by simpa using hholds
    have hj : j < w.tasks.length := by
      rw [← hsize]
      exact FinRel.lt_size_of_holds hholds
    exact hnext j hj ((h.order hj hposition).mp hholds)

theorem remove (h : Encodes tasks n w) (hposition : position < w.tasks.length) :
    Encodes tasks (n.remove position) (w.remove position) := by
  have hsize : n.order.size = w.tasks.length := h.size.trans h.length
  have hlength : (w.tasks.eraseIdx position).length = w.tasks.length - 1 := List.length_eraseIdx_of_lt hposition
  refine ⟨h.toOrdered.remove (by rwa [h.length]), ?_, ?_, ?_⟩
  · rw [TaskNetwork.remove, OrderedTasks.remove, h.indices, List.eraseIdx_map]
  · exact fun t ht => h.known t (List.mem_of_mem_eraseIdx ht)
  · intro i j hi hj
    rw [OrderedTasks.remove, hlength] at hi hj
    rw [TaskNetwork.remove, FinRel.holds_erase _ _ (by rwa [hsize]) (by rwa [hsize])]
    exact h.order (FinRel.skip_lt hi) (FinRel.skip_lt hj)

/-- The subtasks are ordered by the closure of the declared pairs, as in their method. -/
theorem decompose (h : Encodes tasks n w) (hfirst : position ∈ n.first) {subtasks : List GroundTask}
    {network : Schema.Network} (hlength : subtasks.length = network.tasks.length)
    (hpairs : ∀ q ∈ network.order, q.1 < network.tasks.length ∧ q.2 < network.tasks.length)
    (hknown : ∀ t ∈ subtasks, t ∈ tasks) :
    Encodes tasks (n.decompose position (subtasks.map tasks.idxOf) network.closedOrder)
      (w.replace position subtasks network.Before) := by
  obtain ⟨hposition, hnone⟩ := FinRel.mem_minimal.mp hfirst
  have hsize : n.order.size = w.tasks.length := h.size.trans h.length
  have hinner : network.closedOrder.size = subtasks.length := by
    rw [Schema.Network.closedOrder, FinRel.size_ofPairs, hlength]
  have hbefore : ∀ i j, network.closedOrder.holds i j = true ↔ network.Before i j :=
    FinRel.holds_ofPairs fun q hq => (hpairs q hq).1
  rw [hsize] at hposition
  have hkept : (w.tasks.eraseIdx position ++ subtasks).length = w.tasks.length - 1 + subtasks.length := by
    rw [List.length_append, List.length_eraseIdx_of_lt hposition]
  refine ⟨h.toOrdered.decompose (by rwa [h.length]) (by rw [hinner, List.length_map]), ?_, ?_, ?_⟩
  · rw [TaskNetwork.decompose, OrderedTasks.replace, h.indices, List.map_append, List.eraseIdx_map]
  · intro t ht
    rcases List.mem_append.mp ht with ht | ht
    · exact h.known t (List.mem_of_mem_eraseIdx ht)
    · exact hknown t ht
  · intro i j hi hj
    rw [OrderedTasks.replace, hkept] at hi hj
    have hclosed : network.closedOrder.Transitive := FinRel.transitive_ofPairs _ _
    rw [TaskNetwork.decompose, FinRel.holds_splice h.transitive hclosed (hnone position)
      (by rwa [hsize, hinner]) (by rwa [hsize, hinner]), FinRel.spliced, hsize]
    simp only [OrderedTasks.replace, OrderedTasks.inherited]
    by_cases hik : i < w.tasks.length - 1 <;> by_cases hjk : j < w.tasks.length - 1 <;>
      simp only [hik, hjk, decide_true, decide_false]
    · exact h.order (FinRel.skip_lt hik) (FinRel.skip_lt hjk)
    · exact h.order (FinRel.skip_lt hik) hposition
    · exact h.order hposition (FinRel.skip_lt hjk)
    · exact hbefore _ _

end TaskNetwork.Encodes

end HtnPlanner
