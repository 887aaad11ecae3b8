import HtnPlanner.Search.Space

namespace HtnPlanner

inductive Engine
  | depthFirst
  | breadthFirst
  deriving DecidableEq, Repr, Inhabited

inductive Limit
  | time
  | memory
  deriving DecidableEq, Repr, Inhabited

inductive Outcome
  | success (plan : Plan)
  | unsolvable
  | exceeded (limit : Limit)
  deriving DecidableEq, Repr, Inhabited

structure Statistics where
  expanded : Nat := 0
  /-- The nodes that were new when they were reached. -/
  generated : Nat := 0
  duplicates : Nat := 0
  /-- The uses of actions, and those of methods, whether the node was new or not. -/
  actions : Nat := 0
  methods : Nat := 0
  deriving DecidableEq, Repr, Inhabited

structure Search where
  space : SearchSpace
  /-- The nodes that were not expanded yet, the next one first. -/
  frontier : List Nat
  statistics : Statistics := {}

inductive Progress
  | running (s : Search)
  | finished (outcome : Outcome) (statistics : Statistics)

namespace Search

/-- Counts a node that is expanded, and the operators that its successors come from. -/
def countExpanded (s : Search) (cs : List Successor) : Search :=
  let stats := s.statistics
  { s with
    statistics := { stats with
      expanded := stats.expanded + 1
      actions := stats.actions + cs.countP (·.operator.isAction)
      methods := stats.methods + cs.countP (!·.operator.isAction) } }

/-- Stores a successor of a node. Its id is given if it is new. -/
def store (s : Search) (parent : Nat) (c : Successor) : Option Nat × Search :=
  let stats := s.statistics
  match s.space.insert ⟨c.situation, some (parent, c.operator)⟩ with
  | ((id, true), space) =>
    (some id, { s with space, statistics := { stats with generated := stats.generated + 1 } })
  | ((_, false), space) =>
    (none, { s with space, statistics := { stats with duplicates := stats.duplicates + 1 } })

def storeAll (s : Search) (parent : Nat) : List Successor → List Nat × Search
  | [] => ([], s)
  | c :: cs =>
    let (id, s) := s.store parent c
    let (ids, s) := s.storeAll parent cs
    (id.toList ++ ids, s)

/-- Stores successors up to the first that is new and a goal, and puts those that are new at the end
of the frontier. -/
def enqueue (p : EncodedProblem) (parent : Nat) (s : Search) : List Successor → Progress
  | [] => .running s
  | c :: cs =>
    match s.store parent c with
    | (none, s) => enqueue p parent s cs
    | (some id, s) =>
      if p.isGoal c.situation then .finished (.success (s.space.planTo id)) s.statistics
      else enqueue p parent { s with frontier := s.frontier ++ [id] } cs

end Search

namespace Engine

/-- A node is tested for the goal when it is taken off the frontier, and its children come first. -/
def stepDepthFirst (p : EncodedProblem) (exceeded : Option Limit) (s : Search) : Progress :=
  match s.frontier with
  | [] => .finished .unsolvable s.statistics
  | id :: rest =>
    let here := s.space.situation id
    if p.isGoal here then .finished (.success (s.space.planTo id)) s.statistics
    else
      match exceeded with
      | some limit => .finished (.exceeded limit) s.statistics
      | none =>
        let cs := p.successors here
        let (children, s) := (s.countExpanded cs).storeAll id cs
        .running { s with frontier := children ++ rest }

/-- A node is tested for the goal when it is stored, and its children come last. -/
def stepBreadthFirst (p : EncodedProblem) (exceeded : Option Limit) (s : Search) : Progress :=
  match s.frontier with
  | [] => .finished .unsolvable s.statistics
  | id :: rest =>
    match exceeded with
    | some limit => .finished (.exceeded limit) s.statistics
    | none =>
      let cs := p.successors (s.space.situation id)
      ({ s with frontier := rest }.countExpanded cs).enqueue p id cs

def step : Engine → EncodedProblem → Option Limit → Search → Progress
  | depthFirst => stepDepthFirst
  | breadthFirst => stepBreadthFirst

def start (e : Engine) (p : EncodedProblem) : Progress :=
  if p.unsolvable?.isSome then .finished .unsolvable {}
  else if e = breadthFirst ∧ p.isGoal p.initial then .finished (.success {}) {}
  else .running { space := .new Situation.hash p.initial, frontier := [0] }

/-- Runs on for at most `fuel` steps. The limit exceeded after so many expansions, if any, is given by
`exceeded`. -/
def run (e : Engine) (p : EncodedProblem) (exceeded : Nat → Option Limit) :
    Nat → Progress → Option (Outcome × Statistics)
  | _, .finished outcome statistics => some (outcome, statistics)
  | 0, .running _ => none
  | fuel + 1, .running s => run e p exceeded fuel (e.step p (exceeded s.statistics.expanded) s)

def search (e : Engine) (p : EncodedProblem) (exceeded : Nat → Option Limit) (fuel : Nat) :
    Option (Outcome × Statistics) :=
  e.run p exceeded fuel (e.start p)

end Engine

/-- Bounds on a search: nanoseconds and megabytes. -/
structure Limits where
  time : Option Nat := none
  memory : Option Nat := none
  deriving DecidableEq, Repr, Inhabited

/-- What a search has taken up so far: nanoseconds and megabytes. -/
structure Usage where
  time : Nat
  memory : Nat
  deriving DecidableEq, Repr, Inhabited

def Limits.exceeded (l : Limits) (u : Usage) : Option Limit :=
  if l.time.any (· < u.time) then some .time
  else if l.memory.any (· < u.memory) then some .memory
  else none

end HtnPlanner
