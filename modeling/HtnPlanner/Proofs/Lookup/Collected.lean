import HtnPlanner.Proofs.Encoded.Relevance
import HtnPlanner.Proofs.Lookup.Actions
import HtnPlanner.Proofs.Lookup.Registry

/-!
Facts and tasks get their numbers as they are collected: each is put on a list and its place is entered in a map, and
from then on only the map is asked. What it has is the place on the list.
-/

namespace HtnPlanner

instance : Hashable Fact := ⟨fun f => mixHash (hash f.predicate) (hash f.args)⟩

instance : Hashable GroundTask := ⟨fun t => mixHash (hash t.symbol) (hash t.args)⟩

namespace Lookup

abbrev Facts := Registry Fact Fact

abbrev Tasks := Registry GroundTask Encoded.Task

/-- A task that is new gets a number, and a place on the queue. -/
def enter (s : Symbols) (work : List GroundTask × Tasks) (t : GroundTask) : Option (List GroundTask × Tasks) :=
  match work.2.numbers[t]? with
  | some _ => some work
  | none => do
    let tasks := work.2.assign t work.2.members.length
    some (work.1 ++ [t], tasks.push ⟨t, ← isPrimitive s t.symbol⟩)

/-- Breadth first. There is no result unless the queue gets empty. -/
def collectFrom (s : Symbols) (next : GroundTask → List GroundTask) : Nat → List GroundTask × Tasks → Option Tasks
  | _, ([], tasks) => some tasks
  | 0, (_ :: _, _) => none
  | rounds + 1, (t :: queue, tasks) => do collectFrom s next rounds (← (next t).foldlM (enter s) (queue, tasks))

def collectTasks (p : GroundProblem) : Option Tasks := do
  collectFrom p.symbols p.subtasksOf (p.initialTasks.length + (p.methods.flatMap (·.subtasks)).length)
    (← p.resolvedTasks.foldlM (enter p.symbols) ([], {}))

def relevantActions (p : GroundProblem) (tasks : Tasks) : Option (List Schema.Action) :=
  keep (fun a => (groundTask a).map tasks.numbers.contains) p.actions

def relevantMethods (p : GroundProblem) (tasks : Tasks) : List Schema.Method :=
  p.methods.filter fun m => m.groundTask?.any tasks.numbers.contains

def collectFacts (goal : Expr) (actions : List Schema.Action) (methods : List Schema.Method) : Option Facts := do
  let ofActions ← gather (fun a => do
    let precondition ← a.precondition.literals?
    let effect ← a.effect.literals?
    some ((precondition ++ effect).map (·.fact))) actions
  let ofMethods ← gather (fun m => m.precondition.literals?.map (·.map (·.fact))) methods
  some ((ofActions ++ ofMethods ++ goal.facts).foldl Registry.intern {})

/-- All that is numbered, the tasks first. -/
def collect (p : GroundProblem) : Option (Facts × Tasks) := do
  let tasks ← collectTasks p
  let actions ← relevantActions p tasks
  let facts ← collectFacts p.goal actions (relevantMethods p tasks)
  some (facts, tasks)

/-! ### Tasks -/

/-- The tasks that came up so far have been entered, in that order. -/
def Entered (s : Symbols) (tasks : Tasks) (seen : List GroundTask) : Prop :=
  tasks.Holds (·.ground) (seen.map fun t => ⟨t, s.isPrimitive t.symbol⟩)

variable {s : Symbols} {tasks : Tasks} {seen queue : List GroundTask} {t : GroundTask}

theorem Entered.ground (seen : List GroundTask) :
    (seen.map fun t => Encoded.Task.mk t (s.isPrimitive t.symbol)).map (·.ground) = seen := by
  rw [List.map_map]
  exact List.map_id _

theorem Entered.numbers (h : Entered s tasks seen) (t : GroundTask) : tasks.numbers[t]? = seen.idxOf? t := by
  rw [Registry.Holds.numbers h, ground]

theorem Entered.mem_iff (h : Entered s tasks seen) : tasks.numbers[t]? = none ↔ t ∉ seen := by
  rw [h.numbers, List.idxOf?_eq_none_iff]

theorem Entered.push (h : Entered s tasks seen) (ht : t ∉ seen) :
    Entered s ((tasks.assign t tasks.members.length).push ⟨t, s.isPrimitive t.symbol⟩) (seen ++ [t]) := by
  rw [Entered, List.map_append]
  exact Registry.Holds.push h (h.mem_iff.mpr ht)

theorem enter_eq (queue : List GroundTask) (h : Entered s tasks seen) (ht : t.Fits s) :
    ∃ new tasks', enter s (queue, tasks) t = some (queue ++ new, tasks') ∧ insertNew seen t = seen ++ new ∧
      Entered s tasks' (seen ++ new) := by
  rw [enter, insertNew]
  cases hnumber : tasks.numbers[t]? with
  | some i =>
      have hmem : t ∈ seen := by simpa [hnumber] using h.mem_iff (t := t)
      exact ⟨[], tasks, by simp, by simp [hmem], by simpa using h⟩
  | none =>
      have hmem := h.mem_iff.mp hnumber
      obtain ⟨signature, hsignature, -⟩ := ht.arity
      refine ⟨[t], _, ?_, if_neg hmem, h.push hmem⟩
      rw [isPrimitive_eq hsignature]
      rfl

theorem foldlM_enter_eq {ts : List GroundTask} (queue : List GroundTask) (h : Entered s tasks seen)
    (hts : ∀ t ∈ ts, t.Fits s) :
    ∃ new tasks', ts.foldlM (enter s) (queue, tasks) = some (queue ++ new, tasks') ∧
      ts.foldl insertNew seen = seen ++ new ∧ Entered s tasks' (seen ++ new) := by
  induction ts generalizing queue tasks seen with
  | nil => exact ⟨[], tasks, by simp, by simp, by simpa using h⟩
  | cons t ts ih =>
      obtain ⟨ht, hts⟩ := List.forall_mem_cons.mp hts
      obtain ⟨first, tasks₁, hfirst, hseen₁, h₁⟩ := enter_eq queue h ht
      obtain ⟨rest, tasks₂, hrest, hseen₂, h₂⟩ := ih (queue ++ first) h₁ hts
      refine ⟨first ++ rest, tasks₂, ?_, ?_, ?_⟩
      · rw [List.foldlM_cons, hfirst, ← List.append_assoc]
        exact hrest
      · rw [List.foldl_cons, hseen₁, hseen₂, List.append_assoc]
      · rwa [← List.append_assoc]

/-- What is entered in one round is what one round of the search over lists comes upon. -/
theorem foldlM_enter_round {ts : List GroundTask} (queue : List GroundTask) (h : Entered s tasks seen)
    (hts : ∀ t ∈ ts, t.Fits s) :
    ∃ tasks', ts.foldlM (enter s) (queue, tasks) = some (queue ++ (ts.filter (· ∉ seen)).eraseDups, tasks') ∧
      Entered s tasks' (seen ++ (ts.filter (· ∉ seen)).eraseDups) := by
  obtain ⟨new, tasks', hrun, hseen, hentered⟩ := foldlM_enter_eq queue h hts
  rw [foldl_insertNew, List.append_cancel_left_eq] at hseen
  exact ⟨tasks', hseen ▸ hrun, hseen ▸ hentered⟩

/-- If the search over lists empties its queue, so does this one, with the same tasks in the same order. -/
theorem collectFrom_eq {next : GroundTask → List GroundTask} (hnext : ∀ t, t.Fits s → ∀ u ∈ next t, u.Fits s)
    (rounds : Nat) (h : Entered s tasks seen) (hqueue : ∀ t ∈ queue, t.Fits s)
    (hempty : ((reachStep next)^[rounds] (queue, seen)).1 = []) :
    ∃ tasks', collectFrom s next rounds (queue, tasks) = some tasks' ∧
      Entered s tasks' ((reachStep next)^[rounds] (queue, seen)).2 := by
  induction rounds generalizing queue seen tasks with
  | zero =>
      obtain rfl : queue = [] := hempty
      exact ⟨tasks, by rw [collectFrom], h⟩
  | succ rounds ih =>
      cases queue with
      | nil =>
          rw [Function.iterate_fixed rfl]
          exact ⟨tasks, by rw [collectFrom], h⟩
      | cons t queue =>
          obtain ⟨ht, hqueue⟩ := List.forall_mem_cons.mp hqueue
          have hnew := hnext t ht
          have hqueue' : ∀ u ∈ queue ++ ((next t).filter (· ∉ seen)).eraseDups, u.Fits s := by
            intro u hu
            rcases List.mem_append.mp hu with hu | hu
            · exact hqueue u hu
            · exact hnew u (List.mem_filter.mp (List.mem_eraseDups.mp hu)).1
          obtain ⟨tasks₁, hround, h₁⟩ := foldlM_enter_round queue h hnew
          rw [Function.iterate_succ_apply, reachStep] at hempty ⊢
          obtain ⟨tasks₂, hrest, h₂⟩ := ih h₁ hqueue' hempty
          refine ⟨tasks₂, ?_, h₂⟩
          rw [collectFrom, hround]
          exact hrest

variable {p : GroundProblem}

theorem collectTasks_eq (h : p.Legible) :
    ∃ tasks, collectTasks p = some tasks ∧ Entered p.symbols tasks p.relevantTasks := by
  have hresolved : ∀ t ∈ p.resolvedTasks, t.Fits p.symbols :=
    fun t ht => h.initialTasks t (GroundProblem.mem_resolvedTasks ht)
  have hnone : Entered p.symbols ({} : Tasks) [] := Registry.holds_empty
  obtain ⟨first, started, hstart, hfirst, hstarted⟩ := foldlM_enter_eq [] hnone hresolved
  obtain rfl : p.resolvedTasks.eraseDups = first := (foldl_insertNew_nil _).symm.trans hfirst
  rw [List.nil_append] at hstart hstarted
  have hnext : ∀ t, t.Fits p.symbols → ∀ u ∈ p.subtasksOf t, u.Fits p.symbols := by
    intro t _ u hu
    obtain ⟨m, hm, -, hum⟩ := GroundProblem.mem_subtasksOf.mp hu
    exact h.tasks m hm u hum
  have hdrained := reach_drained p.resolvedTasks_subset (fun t _ _ hu => p.subtasksOf_subset t hu)
    (Nat.le_of_eq p.length_mentionedTasks)
  obtain ⟨tasks, htasks, hentered⟩ := collectFrom_eq hnext _ hstarted
    (fun t ht => hresolved t (List.mem_eraseDups.mp ht)) (congrArg Prod.fst hdrained)
  refine ⟨tasks, ?_, ?_⟩
  · rw [collectTasks, hstart]
    exact htasks
  · rwa [hdrained] at hentered

/-! ### Facts -/

theorem Entered.contains (h : Entered s tasks seen) (t : GroundTask) : tasks.numbers.contains t = seen.contains t := by
  rw [Std.HashMap.contains_eq_isSome_getElem?, Bool.eq_iff_iff, List.contains_iff_mem, ← Option.ne_none_iff_isSome,
    ne_eq, h.mem_iff, not_not]

theorem relevantActions_eq (h : p.Legible) (htasks : Entered p.symbols tasks seen) :
    relevantActions p tasks = some (p.relevantActions seen) :=
  keep_eq_some fun a ha => by rw [groundTask_eq (h.arity a ha), Option.map_some, htasks.contains]

theorem relevantMethods_eq (htasks : Entered p.symbols tasks seen) :
    relevantMethods p tasks = p.relevantMethods seen := by
  rw [relevantMethods, funext htasks.contains]
  rfl

theorem collectFacts_eq (h : p.Legible) (seen : List GroundTask) :
    ∃ facts, collectFacts p.goal (p.relevantActions seen) (p.relevantMethods seen) = some facts ∧
      facts.Holds id (p.relevantFacts seen) := by
  have hactions : ∀ a ∈ p.relevantActions seen, (do
      let precondition ← a.precondition.literals?
      let effect ← a.effect.literals?
      some ((precondition ++ effect).map (·.fact))) =
        some ((a.precondition.literals ++ a.effectLiterals).map (·.fact)) := by
    intro a ha
    have ha := (GroundProblem.mem_relevantActions.mp ha).1
    rw [h.precondition a ha, h.effect a ha]
    rfl
  have hmethods : ∀ m ∈ p.relevantMethods seen, m.precondition.literals?.map (·.map (·.fact)) =
      some (m.precondition.literals.map (·.fact)) := by
    intro m hm
    rw [h.condition m (GroundProblem.mem_relevantMethods.mp hm).1, Option.map_some]
  rw [collectFacts, gather_eq_some hactions, gather_eq_some hmethods]
  have hnone : ({} : Facts).Holds id [] := Registry.holds_empty
  have hinterned := hnone.foldl_intern
  simp only [foldl_insertNew_nil] at hinterned
  exact ⟨_, rfl, hinterned _⟩

theorem collect_eq (h : p.Legible) : ∃ facts tasks, collect p = some (facts, tasks) ∧
    facts.Holds id (p.relevantFacts p.relevantTasks) ∧ Entered p.symbols tasks p.relevantTasks := by
  obtain ⟨tasks, htasks, hentered⟩ := collectTasks_eq h
  obtain ⟨facts, hfacts, hholds⟩ := collectFacts_eq h p.relevantTasks
  refine ⟨facts, tasks, ?_, hholds, hentered⟩
  simp only [collect, htasks, relevantActions_eq h hentered, relevantMethods_eq hentered, hfacts, Option.bind_eq_bind,
    Option.bind_some]

end Lookup

end HtnPlanner
