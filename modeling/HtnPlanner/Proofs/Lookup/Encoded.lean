import HtnPlanner.Proofs.Encoded.Inheritance
import HtnPlanner.Proofs.Lookup.Collected
import HtnPlanner.Proofs.Lookup.Methods

/-!
Facts and tasks are numbered without one that has no number.
-/

namespace HtnPlanner

/-! ### Orders -/

namespace FinRel

variable {r : FinRel}

/-- From the last to the first, so that no number moves before it is taken out. -/
theorem foldlM_erase?_eq {ts : List Nat} (h : ts.Pairwise (· > ·)) (hlt : ∀ t ∈ ts, t < r.size) :
    ts.foldlM erase? r = some (ts.foldl erase r) := by
  induction ts generalizing r with
  | nil => rfl
  | cons t ts ih =>
      obtain ⟨hfirst, hrest⟩ := List.pairwise_cons.mp h
      have ht := hlt t List.mem_cons_self
      rw [List.foldlM_cons, erase?_eq ht]
      refine ih hrest fun u hu => ?_
      have hu := hfirst u hu
      rw [size_erase]
      omega

end FinRel

namespace Lookup

def indices (facts : Facts) (positive : Bool) (literals : List Literal) : Option IndexSet :=
  (choose (fun l => facts.numbers[l.fact]?.map some) (literals.filter (·.positive == positive))).map .ofList

def condition (facts : Facts) (literals : List Literal) : Option Condition := do
  some ⟨← indices facts true literals, ← indices facts false literals⟩

def effect (facts : Facts) (literals : List Literal) : Option Effect := do
  some ⟨← indices facts true literals, ← indices facts false literals⟩

def action (facts : Facts) (tasks : Tasks) (a : Schema.Action) : Option Encoded.Action := do
  let task ← tasks.numbers[← groundTask a]?
  let precondition ← condition facts (← a.precondition.literals?)
  let effect ← effect facts (← a.effect.literals?)
  some { name := a.name, args := a.args, task, precondition, effect }

def method (facts : Facts) (tasks : Tasks) (m : Schema.Method) : Option Encoded.Method := do
  let task ← tasks.numbers[← m.groundTask?]?
  let precondition ← condition facts (← m.precondition.literals?)
  let subtasks ← (← m.network.groundTasks?).mapM (tasks.numbers[·]?)
  let order ← FinRel.ofPairs? m.network.tasks.length m.network.order
  if subtasks.length = order.size then
    some { name := m.name, args := m.args, task, precondition, subtasks, order }
  else
    none

def goal (facts : Facts) (e : Expr) : Option Goal :=
  (e.dnf.mapM fun clause => do condition facts (← (Expr.conj clause).literals?)).map .mk

/-- The indices of the actions and of the methods, each in the list at its task. -/
def resolvers (tasks : Nat) (actions : List Encoded.Action) (methods : List Encoded.Method) :
    Option (List (List Nat)) := do
  let ofActions ← file (·.1.task) (·.2) (List.replicate tasks []) actions.zipIdx
  file (·.1.task) (·.2) ofActions methods.zipIdx

def initialNetwork (tasks : List (Option Nat)) (pairs : List (Nat × Nat)) : Option TaskNetwork := do
  let closed ← FinRel.ofPairs? tasks.length pairs
  let order ← (positions (·.isNone) tasks).reverse.foldlM FinRel.erase? closed
  if (tasks.filterMap id).length = order.size then some ⟨tasks.filterMap id, order⟩ else none

def ofGround (p : GroundProblem) : Option EncodedProblem := do
  let (facts, tasks) ← collect p
  let actions ← (← relevantActions p tasks).mapM (action facts tasks)
  let methods ← (relevantMethods p tasks).mapM (method facts tasks)
  let resolvers ← resolvers tasks.members.length actions methods
  let initialState ← State.ofList? facts.members.length (p.init.filterMap (facts.numbers[·]?))
  let initialTasks := (p.initialTasks.zip p.resolved).map fun t => if t.2 then tasks.numbers[t.1]? else none
  let initialNetwork ← initialNetwork initialTasks p.initialOrder
  let goal ← goal facts p.goal
  some {
    domainName := p.domainName
    problemName := p.problemName
    symbols := p.symbols
    facts := facts.members
    tasks := tasks.members
    actions
    methods
    resolvers
    initialState
    initialGroundTasks := p.initialTasks
    initialTasks
    initialNetwork
    goal }

section

variable {facts : Facts} {known : List Fact} {literals : List Literal} (hfacts : facts.Holds id known)

include hfacts

theorem indices_eq (h : ∀ l ∈ literals, l.fact ∈ known) (positive : Bool) :
    indices facts positive literals = some (Encoded.indices known positive literals) := by
  have hfound : ∀ l ∈ literals.filter (·.positive == positive),
      facts.numbers[l.fact]?.map some = some (known.idxOf? l.fact) := by
    intro l hl
    rw [hfacts.numbers_id]
    exact map_some_eq (by rw [idxOf?_eq_some (h l (List.mem_filter.mp hl).1)]; rfl)
  rw [indices, choose_eq_some hfound]
  rfl

theorem condition_eq (h : ∀ l ∈ literals, l.fact ∈ known) :
    condition facts literals = some (Encoded.condition known literals) := by
  rw [condition, indices_eq hfacts h, indices_eq hfacts h]
  rfl

theorem effect_eq (h : ∀ l ∈ literals, l.fact ∈ known) :
    effect facts literals = some (Encoded.effect known literals) := by
  rw [effect, indices_eq hfacts h, indices_eq hfacts h]
  rfl

theorem goal_eq {e : Expr} (he : e.IsGround) (h : ∀ f ∈ e.facts, f ∈ known) :
    goal facts e = some (Encoded.goal known e) := by
  rw [goal, mapM_eq_some (f := fun clause => Encoded.condition known (Expr.conj clause).literals) fun c hc => ?_]
  · rfl
  · obtain ⟨hclause, hground, hmem⟩ := Encoded.literals_of_mem_dnf he hc
    rw [Expr.literals?_eq_some hclause (Expr.Over.conjuncts hground)]
    exact condition_eq hfacts fun l hl => h _ (hmem l hl)

end

theorem initialNetwork_eq {tasks : List (Option Nat)} {pairs : List (Nat × Nat)}
    (h : ∀ q ∈ pairs, q.1 < tasks.length ∧ q.2 < tasks.length) :
    initialNetwork tasks pairs = some (Encoded.initialNetwork tasks pairs) := by
  have hpositions : (positions (·.isNone) tasks).reverse.Pairwise (· > ·) :=
    List.pairwise_reverse.mpr (pairwise_positions _ _)
  have hlt : ∀ t ∈ (positions (·.isNone) tasks).reverse, t < (FinRel.ofPairs tasks.length pairs).size := by
    intro t ht
    obtain ⟨_, hget, -⟩ := mem_positions.mp (List.mem_reverse.mp ht)
    rw [FinRel.size_ofPairs]
    exact (List.getElem?_eq_some_iff.mp hget).1
  simp only [initialNetwork, FinRel.ofPairs?_eq h, FinRel.foldlM_erase?_eq hpositions hlt, Option.bind_eq_bind,
    Option.bind_some]
  exact if_pos (Encoded.ordered_initialNetwork tasks pairs).size.symm

variable {p : GroundProblem} {facts : Facts} {tasks : Tasks}

theorem actions_eq (h : p.Legible) {seen : List GroundTask} (hfacts : facts.Holds id (p.relevantFacts seen))
    (htasks : Entered p.symbols tasks seen) :
    (p.relevantActions seen).mapM (action facts tasks) =
      some ((p.relevantActions seen).map (Encoded.action (p.relevantFacts seen) seen)) := by
  refine mapM_eq_some fun a ha => ?_
  obtain ⟨hknown, htask⟩ := GroundProblem.mem_relevantActions.mp ha
  simp only [action, groundTask_eq (h.arity a hknown), h.precondition a hknown, h.effect a hknown,
    htasks.numbers, idxOf?_eq_some htask, condition_eq hfacts fun l hl => GroundProblem.fact_mem_of_action ha hl,
    effect_eq hfacts fun l hl => GroundProblem.fact_mem_of_effect ha hl, Option.bind_eq_bind, Option.bind_some]
  rfl

theorem methods_eq (hp : p.WellFormed) (h : p.Legible) (hfacts : facts.Holds id (p.relevantFacts p.relevantTasks))
    (htasks : Entered p.symbols tasks p.relevantTasks) :
    (p.relevantMethods p.relevantTasks).mapM (method facts tasks) =
      some ((p.relevantMethods p.relevantTasks).map
        (Encoded.method (p.relevantFacts p.relevantTasks) p.relevantTasks)) := by
  refine mapM_eq_some fun m hm => ?_
  obtain ⟨hknown, t, ht, hmt⟩ := GroundProblem.mem_relevantMethods.mp hm
  have hsubtasks : m.subtasks.mapM (p.relevantTasks.idxOf? ·) = some (m.subtasks.map p.relevantTasks.idxOf) :=
    mapM_eq_some fun u hu => idxOf?_eq_some ((GroundProblem.relevantTasks_spec p).2 t ht m hknown hmt u hu)
  have hlength : (m.subtasks.map p.relevantTasks.idxOf).length = m.network.closedOrder.size := by
    rw [List.length_map, hp.subtasks m hknown, Schema.Network.closedOrder, FinRel.size_ofPairs]
  simp only [method, hmt, htasks.numbers, idxOf?_eq_some ht, h.condition m hknown, h.subtasks m hknown, hsubtasks,
    condition_eq hfacts fun l hl => GroundProblem.fact_mem_of_method hm hl,
    FinRel.ofPairs?_eq (hp.methodOrder m hknown), Option.bind_eq_bind, Option.bind_some]
  refine (if_pos hlength).trans ?_
  rw [Encoded.method, hmt]
  rfl

theorem resolvers_eq {n : Nat} {actions : List Encoded.Action} {methods : List Encoded.Method}
    (hactions : ∀ a ∈ actions, a.task < n) (hmethods : ∀ m ∈ methods, m.task < n) :
    resolvers n actions methods = some ((List.range n).map (Encoded.resolvers actions methods)) := by
  have hactions' : ∀ a ∈ actions.zipIdx, a.1.task < n := fun a ha => hactions a.1 (List.fst_mem_of_mem_zipIdx ha)
  have hmethods' : ∀ m ∈ methods.zipIdx, m.1.task < n := fun m hm => hmethods m.1 (List.fst_mem_of_mem_zipIdx hm)
  rw [resolvers, file_replicate _ hactions', Option.bind_eq_bind, Option.bind_some,
    file_eq _ (by simpa using hmethods')]
  refine congrArg some (List.ext_getElem? fun k => ?_)
  rw [List.getElem?_mapIdx, List.getElem?_map, List.getElem?_map, Option.map_map]
  by_cases hk : k < n
  · rw [List.getElem?_range hk]
    rfl
  · simp [hk]

theorem task_lt_of_mem_actions {seen : List GroundTask} :
    ∀ a ∈ (p.relevantActions seen).map (Encoded.action (p.relevantFacts seen) seen), a.task < seen.length :=
  List.forall_mem_map.mpr fun _ ha => List.idxOf_lt_length_of_mem (GroundProblem.mem_relevantActions.mp ha).2

theorem task_lt_of_mem_methods {seen : List GroundTask} :
    ∀ m ∈ (p.relevantMethods seen).map (Encoded.method (p.relevantFacts seen) seen), m.task < seen.length := by
  refine List.forall_mem_map.mpr fun m hm => ?_
  obtain ⟨-, t, ht, hmt⟩ := GroundProblem.mem_relevantMethods.mp hm
  rw [Encoded.method, hmt]
  exact List.idxOf_lt_length_of_mem ht

theorem initialState_eq (facts init : List Fact) :
    State.ofList? facts.length (init.filterMap facts.idxOf?) =
      some (.ofList facts.length (init.filterMap facts.idxOf?)) := by
  refine if_pos (List.all_eq_true.mpr fun k hk => decide_eq_true ?_)
  obtain ⟨f, -, hf⟩ := List.mem_filterMap.mp hk
  exact (List.getElem?_eq_some_iff.mp (getElem?_of_idxOf? hf)).1

/-- Every fact, every task and every position that is numbered is there. -/
theorem ofGround_eq (hp : p.WellFormed) (h : p.Legible) : ofGround p = some (.ofGround p) := by
  obtain ⟨facts, tasks, hcollect, hfacts, htasks⟩ := collect_eq h
  have hfactNumbers : (facts.numbers[·]?) = (p.relevantFacts p.relevantTasks).idxOf? := funext hfacts.numbers_id
  have hlength : ((p.initialTasks.zip p.resolved).map fun t =>
      if t.2 then p.relevantTasks.idxOf? t.1 else none).length = p.initialTasks.length := by
    rw [List.length_map, List.length_zip, hp.resolved, Nat.min_self]
  simp only [ofGround, hcollect, relevantActions_eq h htasks, relevantMethods_eq htasks, actions_eq h hfacts htasks,
    methods_eq hp h hfacts htasks, hfacts.members, htasks.members, List.length_map,
    resolvers_eq task_lt_of_mem_actions task_lt_of_mem_methods, hfactNumbers, initialState_eq, htasks.numbers,
    initialNetwork_eq (hlength.symm ▸ hp.initialOrder),
    goal_eq hfacts hp.goal fun f hf => GroundProblem.fact_mem_of_goal hf, Option.bind_eq_bind, Option.bind_some]
  rfl

end Lookup

end HtnPlanner
