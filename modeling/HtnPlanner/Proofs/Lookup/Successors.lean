import HtnPlanner.Proofs.Lookup.Encoded

/-!
Wherever a search comes, the tasks and the operators that it looks up are there.
-/

namespace HtnPlanner

/-- The order is one between the tasks, whose indices are below `count`. -/
structure TaskNetwork.Fits (count : Nat) (n : TaskNetwork) : Prop where
  size : n.order.size = n.tasks.length
  known : ∀ k ∈ n.tasks, k < count

/-- Indices are of tasks and operators that are there, and all of them have names. -/
structure EncodedProblem.Legible (p : EncodedProblem) : Prop where
  initial : p.initialNetwork.Fits p.tasks.length
  subtasks : ∀ m ∈ p.methods, TaskNetwork.Fits p.tasks.length ⟨m.subtasks, m.order⟩
  resolvers : p.resolvers.length = p.tasks.length
  operators : ∀ k, ∀ o ∈ p.operatorsFor k, p.knows o = true
  initialTasks : p.initialTasks.length = p.initialGroundTasks.length
  initialGroundTasks : ∀ t ∈ p.initialGroundTasks, t.Fits p.symbols
  actionArgs : ∀ a ∈ p.actions, ∀ c ∈ a.args, c < p.symbols.constants.size
  methodArgs : ∀ m ∈ p.methods, ∀ c ∈ m.args, c < p.symbols.constants.size

theorem EncodedProblem.legible_ofGround {p : GroundProblem} (hp : p.WellFormed) (h : p.Legible) :
    (ofGround p).Legible := by
  have hcount : (ofGround p).tasks.length = p.relevantTasks.length := List.length_map _
  refine ⟨⟨(Encoded.ordered_initialNetwork _ _).size, fun k hk => ?_⟩, List.forall_mem_map.mpr fun m hm => ?_, ?_,
    fun k o ho => ?_, ?_, h.initialTasks, List.forall_mem_map.mpr fun a ha => ?_,
    List.forall_mem_map.mpr fun m hm => ?_⟩
  · obtain ⟨_, hk, rfl⟩ := List.mem_filterMap.mp hk
    obtain ⟨⟨t, r⟩, -, hk⟩ := List.mem_map.mp hk
    rw [Option.ite_none_right_eq_some] at hk
    rw [hcount]
    exact (List.getElem?_eq_some_iff.mp (getElem?_of_idxOf? hk.2)).1
  · obtain ⟨hknown, t, ht, hmt⟩ := GroundProblem.mem_relevantMethods.mp hm
    refine ⟨?_, List.forall_mem_map.mpr fun u hu => ?_⟩
    · rw [Encoded.method, List.length_map, hp.subtasks m hknown, Schema.Network.closedOrder, FinRel.size_ofPairs]
    · rw [hcount]
      exact List.idxOf_lt_length_of_mem ((GroundProblem.relevantTasks_spec p).2 t ht m hknown hmt u hu)
  · rw [hcount, ofGround, List.length_map, List.length_range]
  · obtain ⟨t, -, -, hresolves⟩ := (GroundProblem.mem_operatorsFor hp).mp ho
    rw [knows, hresolves.taskOf?, Option.isSome_some]
  · rw [ofGround, List.length_map, List.length_zip, hp.resolved, Nat.min_self]
  · exact h.actionArgs a (GroundProblem.mem_relevantActions.mp ha).1
  · exact h.methodArgs m (GroundProblem.mem_relevantMethods.mp hm).1

namespace Lookup

def remove (n : TaskNetwork) (position : Nat) : Option TaskNetwork :=
  if position < n.tasks.length then (n.order.erase? position).map (⟨n.tasks.eraseIdx position, ·⟩) else none

def decompose (n : TaskNetwork) (position : Nat) (subtasks : List Nat) (inner : FinRel) : Option TaskNetwork :=
  if position < n.tasks.length ∧ subtasks.length = inner.size then
    (n.order.splice? position inner).map (⟨n.tasks.eraseIdx position ++ subtasks, ·⟩)
  else
    none

def applicable (p : EncodedProblem) (s : State) : Operator → Option Bool
  | .action i => p.actions[i]?.map (·.isApplicable s)
  | .method i => p.methods[i]?.map (·.isApplicable s)

def apply (p : EncodedProblem) (s : Situation) (position : Nat) : Operator → Option Situation
  | .action i => do
    let a ← p.actions[i]?
    some ⟨a.effect.apply s.state, ← remove s.network position⟩
  | .method i => do
    let m ← p.methods[i]?
    some ⟨s.state, ← decompose s.network position m.subtasks m.order⟩

def successor (p : EncodedProblem) (s : Situation) (position : Nat) (o : Operator) : Option (Option Successor) := do
  if ← applicable p s.state o then (apply p s position o).map fun t => some ⟨o, t⟩ else some none

def successorsAt (p : EncodedProblem) (s : Situation) (position : Nat) : Option (List Successor) := do
  let k ← s.network.tasks[position]?
  let task ← p.tasks[k]?
  let resolvers ← p.resolvers[k]?
  choose (successor p s position) (resolvers.map (if task.primitive then .action else .method))

def successors (p : EncodedProblem) (s : Situation) : Option (List Successor) :=
  gather (successorsAt p s) s.network.first

end Lookup

section

variable {count : Nat} {n : TaskNetwork} {position : Nat} {subtasks : List Nat} {inner : FinRel}

theorem TaskNetwork.Fits.lt_length (h : n.Fits count) (hfirst : position ∈ n.first) : position < n.tasks.length := by
  rw [← h.size]
  exact (FinRel.mem_minimal.mp hfirst).1

theorem TaskNetwork.Fits.remove (h : n.Fits count) (hposition : position < n.tasks.length) :
    (n.remove position).Fits count := by
  refine ⟨?_, fun k hk => h.known k (List.mem_of_mem_eraseIdx hk)⟩
  rw [TaskNetwork.remove, FinRel.size_erase, h.size, List.length_eraseIdx_of_lt hposition]

theorem TaskNetwork.Fits.decompose (h : n.Fits count) (hposition : position < n.tasks.length)
    (hinner : TaskNetwork.Fits count ⟨subtasks, inner⟩) : (n.decompose position subtasks inner).Fits count := by
  have hsize : inner.size = subtasks.length := hinner.size
  refine ⟨?_, fun k hk => (List.mem_append.mp hk).elim (fun hk => h.known k (List.mem_of_mem_eraseIdx hk))
    (hinner.known k)⟩
  rw [TaskNetwork.decompose, FinRel.size_splice, h.size, List.length_append, List.length_eraseIdx_of_lt hposition,
    hsize]

theorem Lookup.remove_eq (h : n.Fits count) (hposition : position < n.tasks.length) :
    remove n position = some (n.remove position) := by
  have hsize : position < n.order.size := by rwa [h.size]
  rw [remove, if_pos hposition, FinRel.erase?_eq hsize]
  rfl

theorem Lookup.decompose_eq (h : n.Fits count) (hposition : position < n.tasks.length)
    (hinner : TaskNetwork.Fits count ⟨subtasks, inner⟩) :
    decompose n position subtasks inner = some (n.decompose position subtasks inner) := by
  have hsize : position < n.order.size := by rwa [h.size]
  rw [decompose, if_pos ⟨hposition, hinner.size.symm⟩, FinRel.splice?_eq hsize]
  rfl

end

namespace EncodedProblem

variable {p : EncodedProblem} {s t : Situation} {position : Nat} {o : Operator}

theorem Legible.fits_apply (h : p.Legible) (hs : s.network.Fits p.tasks.length)
    (hposition : position < s.network.tasks.length) (o : Operator) :
    (p.apply s position o).network.Fits p.tasks.length := by
  cases o with
  | action i =>
      rw [EncodedProblem.apply]
      cases p.actions[i]? with
      | none => exact hs
      | some a => exact hs.remove hposition
  | method i =>
      rw [EncodedProblem.apply]
      cases hm : p.methods[i]? with
      | none => exact hs
      | some m => exact hs.decompose hposition (h.subtasks m (List.mem_of_getElem? hm))

theorem Legible.fits_of_mem_successors (h : p.Legible) (hs : s.network.Fits p.tasks.length)
    (ht : ⟨o, t⟩ ∈ p.successors s) : t.network.Fits p.tasks.length := by
  obtain ⟨position, hfirst, ht⟩ := mem_successors_iff.mp ht
  obtain ⟨-, -, -, -, rfl⟩ := mem_successorsAt_iff.mp ht
  exact h.fits_apply hs (hs.lt_length hfirst) o

theorem Legible.fits_of_reachable (h : p.Legible) (hs : p.Reachable s) : s.network.Fits p.tasks.length := by
  obtain ⟨os, hrun⟩ := hs
  exact hrun.preserves h.initial fun s o t hs ht => h.fits_of_mem_successors hs ht

end EncodedProblem

namespace Lookup

variable {p : EncodedProblem} {s : Situation} {position : Nat} {o : Operator}

theorem exists_action {i : Nat} (h : p.knows (.action i) = true) : ∃ a, p.actions[i]? = some a :=
  Option.isSome_iff_exists.mp (Option.isSome_map.symm.trans h)

theorem exists_method {i : Nat} (h : p.knows (.method i) = true) : ∃ m, p.methods[i]? = some m :=
  Option.isSome_iff_exists.mp (Option.isSome_map.symm.trans h)

theorem applicable_eq (ho : p.knows o = true) (s : State) : applicable p s o = some (p.isApplicable s o) := by
  cases o with
  | action i =>
      obtain ⟨a, ha⟩ := exists_action ho
      rw [applicable, EncodedProblem.isApplicable, ha]
      rfl
  | method i =>
      obtain ⟨m, hm⟩ := exists_method ho
      rw [applicable, EncodedProblem.isApplicable, hm]
      rfl

theorem apply_eq (h : p.Legible) (hs : s.network.Fits p.tasks.length)
    (hposition : position < s.network.tasks.length) (ho : p.knows o = true) :
    apply p s position o = some (p.apply s position o) := by
  cases o with
  | action i =>
      obtain ⟨a, ha⟩ := exists_action ho
      rw [apply, EncodedProblem.apply, ha, Option.bind_eq_bind, Option.bind_some, remove_eq hs hposition]
      rfl
  | method i =>
      obtain ⟨m, hm⟩ := exists_method ho
      rw [apply, EncodedProblem.apply, hm, Option.bind_eq_bind, Option.bind_some,
        decompose_eq hs hposition (h.subtasks m (List.mem_of_getElem? hm))]
      rfl

theorem successor_eq (h : p.Legible) (hs : s.network.Fits p.tasks.length)
    (hposition : position < s.network.tasks.length) (ho : p.knows o = true) :
    successor p s position o =
      some (if p.isApplicable s.state o then some ⟨o, p.apply s position o⟩ else none) := by
  rw [successor, applicable_eq ho, Option.bind_eq_bind, Option.bind_some, apply_eq h hs hposition ho]
  split <;> rfl

theorem successorsAt_eq (h : p.Legible) (hs : s.network.Fits p.tasks.length) (hfirst : position ∈ s.network.first) :
    successorsAt p s position = some (p.successorsAt s position) := by
  have hposition := hs.lt_length hfirst
  obtain ⟨k, hk⟩ : ∃ k, s.network.tasks[position]? = some k := ⟨_, List.getElem?_eq_getElem hposition⟩
  have hcount := hs.known k (List.mem_of_getElem? hk)
  obtain ⟨task, htask⟩ : ∃ task, p.tasks[k]? = some task := ⟨_, List.getElem?_eq_getElem hcount⟩
  obtain ⟨resolvers, hresolvers⟩ : ∃ resolvers, p.resolvers[k]? = some resolvers :=
    ⟨_, List.getElem?_eq_getElem (h.resolvers.symm ▸ hcount)⟩
  have hoperators : p.operatorsFor k = resolvers.map (if task.primitive then .action else .method) := by
    rw [EncodedProblem.operatorsFor, EncodedProblem.resolversOf, List.getD_eq_getElem?_getD, hresolvers,
      EncodedProblem.isPrimitive, htask]
    rfl
  have hsuccessors := choose_eq_some fun o ho => successor_eq h hs hposition (h.operators k o ho)
  rw [← List.filterMap_filter, List.filterMap_eq_map', hoperators] at hsuccessors
  simp only [successorsAt, EncodedProblem.successorsAt, hk, htask, hresolvers, hsuccessors, Option.bind_eq_bind,
    Option.bind_some, Option.elim_some, hoperators]

theorem successors_eq (h : p.Legible) (hs : s.network.Fits p.tasks.length) :
    successors p s = some (p.successors s) :=
  gather_eq_some fun _ hfirst => successorsAt_eq h hs hfirst

end Lookup

end HtnPlanner
