import HtnPlanner.Proofs.Lookup.Successors
import HtnPlanner.Proofs.Search.Growth

/-!
A search finds every node that it looks up, and the way back from each to the root.
-/

namespace HtnPlanner

open SearchSpace (Forest)

namespace Lookup

/-! ### Before the search -/

def render (s : Symbols) (name : String) (args : List Nat) : Option String :=
  (args.mapM s.constants.name?).map fun names => "(" ++ " ".intercalate (name :: names) ++ ")"

def renderTask (s : Symbols) (t : GroundTask) : Option String := do
  render s (← s.tasks.name? t.symbol) t.args

def unsolvable (p : EncodedProblem) : Option (Option Unsolvable) :=
  match p.initialTasks.findIdx? (·.isNone) with
  | some position => do
    some (some (.ungroundableTask position (← renderTask p.symbols (← p.initialGroundTasks[position]?))))
  | none => some (if p.goal.isFalse then some .falseGoal else none)

theorem render_eq {s : Symbols} {args : List Nat} (h : ∀ c ∈ args, c < s.constants.size) (name : String) :
    render s name args = some (s.render name args) := by
  have hnames : args.mapM s.constants.name? = some (args.map s.constantName) := by
    refine mapM_eq_some fun c hc => ?_
    have hentry := List.getElem?_eq_getElem (h c hc)
    rw [Symbols.constantName, Catalog.name?, hentry]
    rfl
  rw [render, hnames]
  rfl

theorem renderTask_eq {s : Symbols} {t : GroundTask} (h : t.Fits s) : renderTask s t = some (s.renderTask t) := by
  obtain ⟨signature, hsignature, -⟩ := h.arity
  obtain ⟨entry, hentry, -⟩ := Option.map_eq_some_iff.mp hsignature
  rw [renderTask, Symbols.renderTask, Catalog.name?, hentry, Option.map_some, Option.bind_eq_bind, Option.bind_some,
    Option.getD_some, render_eq h.args]

theorem unsolvable_eq {p : EncodedProblem} (h : p.Legible) : unsolvable p = some p.unsolvable? := by
  rw [unsolvable, EncodedProblem.unsolvable?]
  cases hfind : p.initialTasks.findIdx? (·.isNone) with
  | none => rfl
  | some position =>
      obtain ⟨hlt, -, -⟩ := List.findIdx?_eq_some_iff_getElem.mp hfind
      have ht := List.getElem?_eq_getElem (h.initialTasks ▸ hlt)
      simp only [ht, List.getD_eq_getElem?_getD, Option.bind_eq_bind, Option.bind_some, Option.getD_some,
        renderTask_eq (h.initialGroundTasks _ (List.mem_of_getElem? ht))]

/-! ### Nodes -/

def situation (space : SearchSpace) (id : Nat) : Option Situation := space.nodes[id]?.map (·.situation)

def insertNode (space : SearchSpace) (n : Node) : Option ((Nat × Bool) × SearchSpace) := do
  match ← firstOf (fun id => (situation space id).map (· == n.situation)) (space.bucket n.situation) with
  | some id => some ((id, false), space)
  | none => some ((space.nodes.size, true), space.push n)

def store (s : Search) (parent : Nat) (c : Successor) : Option (Option Nat × Search) := do
  let stats := s.statistics
  match ← insertNode s.space ⟨c.situation, some (parent, c.operator)⟩ with
  | ((id, true), space) =>
    some (some id, { s with space, statistics := { stats with generated := stats.generated + 1 } })
  | ((_, false), space) =>
    some (none, { s with space, statistics := { stats with duplicates := stats.duplicates + 1 } })

def storeAll (s : Search) (parent : Nat) : List Successor → Option (List Nat × Search)
  | [] => some ([], s)
  | c :: cs => do
    let (id, s) ← store s parent c
    let (ids, s) ← storeAll s parent cs
    some (id.toList ++ ids, s)

def enqueue (p : EncodedProblem) (parent : Nat) (s : Search) : List Successor → Option Progress
  | [] => some (.running s)
  | c :: cs => do
    match ← store s parent c with
    | (none, s) => enqueue p parent s cs
    | (some id, s) =>
      if p.isGoal (← situation s.space id) then
        some (.finished (.success (← s.space.planTo? id)) s.statistics)
      else
        enqueue p parent { s with frontier := s.frontier ++ [id] } cs

section

variable {p : EncodedProblem} {s : Search} {parent id : Nat} {m n : Node} {cs : List Successor}

theorem situation_eq {space : SearchSpace} (hn : space.nodes[id]? = some n) :
    situation space id = some n.situation := by
  rw [situation, hn, Option.map_some]

theorem insertNode_eq {space : SearchSpace} (h : space.Indexed) (n : Node) :
    insertNode space n = some (space.insert n) := by
  have hfind : firstOf (fun id => (situation space id).map (· == n.situation)) (space.bucket n.situation) =
      some (space.find? n.situation) := by
    refine firstOf_eq_some fun id hid => ?_
    obtain ⟨m, hm, -⟩ := (h.bucket _ _).mp hid
    rw [situation_eq hm, hm]
    rfl
  rw [insertNode, SearchSpace.insert, hfind, Option.bind_eq_bind, Option.bind_some]
  cases space.find? n.situation <;> rfl

theorem store_eq (h : s.space.Indexed) (parent : Nat) (c : Successor) :
    store s parent c = some (s.store parent c) := by
  rw [store, Search.store, insertNode_eq h, Option.bind_eq_bind, Option.bind_some]
  rcases s.space.insert ⟨c.situation, some (parent, c.operator)⟩ with ⟨⟨id, _ | _⟩, space⟩ <;> rfl

theorem storeAll_eq (h : Forest p s.space) (hm : s.space.nodes[parent]? = some m)
    (hcs : ∀ c ∈ cs, c ∈ p.successors m.situation) : storeAll s parent cs = some (s.storeAll parent cs) := by
  induction cs generalizing s with
  | nil => rfl
  | cons c cs ih =>
      obtain ⟨hforest, hgrows, -, -⟩ := Search.store_spec h hm (hcs c List.mem_cons_self)
      have hrest := ih hforest (hgrows.kept hm) fun d hd => hcs d (List.mem_cons_of_mem c hd)
      simp only [storeAll, Search.storeAll, store_eq h.toIndexed, hrest, Option.bind_eq_bind, Option.bind_some]

theorem enqueue_eq (h : Forest p s.space) (hm : s.space.nodes[parent]? = some m)
    (hcs : ∀ c ∈ cs, c ∈ p.successors m.situation) :
    enqueue p parent s cs = some (Search.enqueue p parent s cs) := by
  induction cs generalizing s with
  | nil => rfl
  | cons c cs ih =>
      obtain ⟨hforest, hgrows, -, hnode⟩ := Search.store_spec h hm (hcs c List.mem_cons_self)
      have hrest : ∀ d ∈ cs, d ∈ p.successors m.situation := fun d hd => hcs d (List.mem_cons_of_mem c hd)
      rw [enqueue, Search.enqueue, store_eq h.toIndexed, Option.bind_eq_bind, Option.bind_some]
      rcases hstore : s.store parent c with ⟨_ | id, t⟩ <;> rw [hstore] at hforest hgrows hnode
      · exact ih hforest (hgrows.kept hm) hrest
      · obtain ⟨n, hn, hs⟩ := hnode id rfl
        simp only [situation_eq hn, hs, hforest.planTo?_eq hn, Option.bind_eq_bind, Option.bind_some]
        split
        · rfl
        · exact ih hforest (hgrows.kept hm) hrest

end

/-! ### Steps -/

def stepDepthFirst (p : EncodedProblem) (exceeded : Option Limit) (s : Search) : Option Progress :=
  match s.frontier with
  | [] => some (.finished .unsolvable s.statistics)
  | id :: rest => do
    let here ← situation s.space id
    if p.isGoal here then some (.finished (.success (← s.space.planTo? id)) s.statistics)
    else
      match exceeded with
      | some limit => some (.finished (.exceeded limit) s.statistics)
      | none =>
        let cs ← successors p here
        let (children, s) ← storeAll (s.countExpanded cs) id cs
        some (.running { s with frontier := children ++ rest })

def stepBreadthFirst (p : EncodedProblem) (exceeded : Option Limit) (s : Search) : Option Progress :=
  match s.frontier with
  | [] => some (.finished .unsolvable s.statistics)
  | id :: rest =>
    match exceeded with
    | some limit => some (.finished (.exceeded limit) s.statistics)
    | none => do
      let cs ← successors p (← situation s.space id)
      enqueue p id ({ s with frontier := rest }.countExpanded cs) cs

def step : Engine → EncodedProblem → Option Limit → Search → Option Progress
  | .depthFirst => stepDepthFirst
  | .breadthFirst => stepBreadthFirst

def start (e : Engine) (p : EncodedProblem) : Option Progress := do
  if (← unsolvable p).isSome then some (.finished .unsolvable {})
  else
    let (_, space) ← insertNode { hash := Situation.hash } { situation := p.initial }
    if e = .breadthFirst ∧ p.isGoal (← situation space 0) then some (.finished (.success {}) {})
    else some (.running { space, frontier := [0] })

/-- There is a result if all lookups find something, but no outcome unless `fuel` is enough for one. -/
def run (e : Engine) (p : EncodedProblem) (exceeded : Nat → Option Limit) :
    Nat → Progress → Option (Option (Outcome × Statistics))
  | _, .finished outcome statistics => some (some (outcome, statistics))
  | 0, .running _ => some none
  | fuel + 1, .running s => do run e p exceeded fuel (← step e p (exceeded s.statistics.expanded) s)

def search (e : Engine) (p : EncodedProblem) (exceeded : Nat → Option Limit) (fuel : Nat) :
    Option (Option (Outcome × Statistics)) := do
  run e p exceeded fuel (← start e p)

section

variable {e : Engine} {p : EncodedProblem} {s : Search}

theorem successors_of_stored (hp : p.Legible) (h : Forest p s.space) {id : Nat} {n : Node}
    (hn : s.space.nodes[id]? = some n) : successors p n.situation = some (p.successors n.situation) :=
  successors_eq hp (hp.fits_of_reachable (h.reachable ⟨id, n, hn, rfl⟩))

theorem stepDepthFirst_eq (hp : p.Legible) (h : s.Invariant .depthFirst p) (exceeded : Option Limit) :
    stepDepthFirst p exceeded s = some (Engine.stepDepthFirst p exceeded s) := by
  rw [stepDepthFirst, Engine.stepDepthFirst]
  cases hf : s.frontier with
  | nil => rfl
  | cons id rest =>
      obtain ⟨n, hn⟩ := h.node hf
      have hstored := storeAll_eq (s := s.countExpanded (p.successors n.situation)) h.forest hn fun c hc => hc
      simp only [situation_eq hn, SearchSpace.situation_eq hn, h.forest.planTo?_eq hn,
        successors_of_stored hp h.forest hn, hstored, Option.bind_eq_bind, Option.bind_some]
      split
      · rfl
      · cases exceeded <;> rfl

theorem stepBreadthFirst_eq (hp : p.Legible) (h : s.Invariant .breadthFirst p) (exceeded : Option Limit) :
    stepBreadthFirst p exceeded s = some (Engine.stepBreadthFirst p exceeded s) := by
  rw [stepBreadthFirst, Engine.stepBreadthFirst]
  cases hf : s.frontier with
  | nil => rfl
  | cons id rest =>
      obtain ⟨n, hn⟩ := h.node hf
      let r := { s with frontier := rest }.countExpanded (p.successors n.situation)
      have hqueued := enqueue_eq (s := r) h.forest hn fun c hc => hc
      cases exceeded with
      | some limit => rfl
      | none =>
          simp only [situation_eq hn, SearchSpace.situation_eq hn, successors_of_stored hp h.forest hn,
            Option.bind_eq_bind, Option.bind_some]
          exact hqueued

theorem step_eq (hp : p.Legible) (h : s.Invariant e p) (exceeded : Option Limit) :
    step e p exceeded s = some (e.step p exceeded s) := by
  cases e with
  | depthFirst => exact stepDepthFirst_eq hp h exceeded
  | breadthFirst => exact stepBreadthFirst_eq hp h exceeded

theorem start_eq (hp : p.Legible) : start e p = some (e.start p) := by
  have hinsert := insertNode_eq (SearchSpace.indexed_empty Situation.hash) { situation := p.initial }
  have hroot : (SearchSpace.new Situation.hash p.initial).nodes[0]? = some { situation := p.initial } :=
    SearchSpace.getElem?_new.mpr ⟨rfl, rfl⟩
  have hsituation : situation (SearchSpace.insert { hash := Situation.hash } { situation := p.initial }).2 0 =
      some p.initial := situation_eq hroot
  rw [start, Engine.start, unsolvable_eq hp, hinsert]
  simp only [Option.bind_eq_bind, Option.bind_some, hsituation]
  split
  · rfl
  · split <;> rfl

theorem run_eq (hp : p.Legible) (h : s.Invariant e p) (exceeded : Nat → Option Limit) (fuel : Nat) :
    run e p exceeded fuel (.running s) = some (e.run p exceeded fuel (.running s)) := by
  induction fuel generalizing s with
  | zero => rfl
  | succ fuel ih =>
      have hstep := Engine.step_right h (exceeded s.statistics.expanded)
      rw [run, Engine.run, step_eq hp h, Option.bind_eq_bind, Option.bind_some]
      cases hs : e.step p (exceeded s.statistics.expanded) s with
      | running t =>
          rw [hs] at hstep
          exact ih hstep.1
      | finished outcome statistics => cases fuel <;> rfl

theorem search_eq (hp : p.Legible) (e : Engine) (exceeded : Nat → Option Limit) (fuel : Nat) :
    search e p exceeded fuel = some (e.search p exceeded fuel) := by
  rw [search, Engine.search, start_eq hp, Option.bind_eq_bind, Option.bind_some]
  obtain ⟨outcome, statistics, hs, -⟩ | ⟨s, hs, hinvariant, -⟩ := Engine.start_right e p
  · rw [hs]
    cases fuel <;> rfl
  · rw [hs]
    exact run_eq hp hinvariant exceeded fuel

end

end Lookup

end HtnPlanner
