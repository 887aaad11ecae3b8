import HtnPlanner.Proofs.Search.Growth
import HtnPlanner.Proofs.Search.Shortest

/-!
Any sequence of insertions, whether or not a search would make them, and any hash. Ids stay those of the nodes
that they were given for, and where each node succeeds the node that it names as its origin, the way back from
any node to the root is a run through nodes.
-/

namespace HtnPlanner.SearchSpace

variable {p : EncodedProblem} {space : SearchSpace} {calls : List Node} {n : Node} {id : Nat}

def insertAll (space : SearchSpace) (nodes : List Node) : SearchSpace :=
  nodes.foldl (fun space n => (space.insert n).2) space

/-- The node is a successor of the stored node that it names as its origin. -/
def Succeeds (p : EncodedProblem) (space : SearchSpace) (n : Node) : Prop :=
  ∃ origin ∈ n.origin, ∃ m ∈ space.nodes[origin.1]?, ⟨origin.2, n.situation⟩ ∈ p.successors m.situation

instance Succeeds.decidable : Decidable (Succeeds p space n) :=
  inferInstanceAs (Decidable (∃ origin ∈ n.origin, ∃ m ∈ space.nodes[origin.1]?, _ ∈ p.successors m.situation))

/-- Each node succeeds its origin by the time that it is inserted. -/
def Expanding (p : EncodedProblem) : SearchSpace → List Node → Prop
  | _, [] => True
  | space, n :: calls => space.Succeeds p n ∧ Expanding p (space.insert n).2 calls

instance Expanding.decidable (p : EncodedProblem) :
    (space : SearchSpace) → (calls : List Node) → Decidable (Expanding p space calls)
  | _, [] => isTrue trivial
  | space, n :: calls =>
    have := Expanding.decidable p (space.insert n).2 calls
    inferInstanceAs (Decidable (_ ∧ _))

theorem Indexed.insertAll (h : space.Indexed) (calls : List Node) : (space.insertAll calls).Indexed := by
  induction calls generalizing space with
  | nil => exact h
  | cons n calls ih => exact ih (h.insert n)

theorem getElem?_insert (h : space.nodes[id]? = some n) (m : Node) :
    (space.insert m).2.nodes[id]? = some n := by
  rw [insert]
  cases space.find? m.situation with
  | some _ => exact h
  | none => exact getElem?_push_eq_some.mpr (Or.inl h)

theorem getElem?_insertAll (h : space.nodes[id]? = some n) (calls : List Node) :
    (space.insertAll calls).nodes[id]? = some n := by
  induction calls generalizing space with
  | nil => exact h
  | cons m calls ih => exact ih (getElem?_insert h m)

theorem Succeeds.grown (h : space.Succeeds p n) (hgrown : p.Grown space) : p.Grown (space.insert n).2 := by
  obtain ⟨⟨parent, o⟩, horigin, m, hm, hsuccessor⟩ := h
  obtain ⟨s, origin⟩ := n
  obtain rfl : origin = some (parent, o) := horigin
  exact hgrown.insert hm hsuccessor

theorem Expanding.grown (h : Expanding p space calls) (hgrown : p.Grown space) :
    p.Grown (space.insertAll calls) := by
  induction calls generalizing space with
  | nil => exact hgrown
  | cons n calls ih => exact ih h.2 (h.1.grown hgrown)

/-- The problem that begins in another situation has the same successors. -/
theorem Expanding.startingFrom (root : Situation) (h : Expanding p space calls) :
    Expanding { p with initialState := root.state, initialNetwork := root.network } space calls := by
  induction calls generalizing space with
  | nil => trivial
  | cons n calls ih => exact ⟨h.1, ih h.2⟩

theorem StoredRun.startingFrom {root s t : Situation} {os : List Operator}
    (h : StoredRun { p with initialState := root.state, initialNetwork := root.network } space s os t) :
    StoredRun p space s os t := by
  induction h with
  | nil stored => exact .nil stored
  | cons stored first _ ih => exact .cons stored first ih

/-- Whatever was inserted and whatever the hash, no situation is stored twice, a node that comes up again gets the
id of the node with its situation and nothing changes, any other gets the next id and comes last, and all that was
stored stays where it is. If the nodes come from expansions, there is a plan to each, and its operators lead from
the root to that node through nodes that are stored. -/
theorem insertAll_parent_forest (hash : Situation → Nat) :
    (∀ calls, let space := insertAll { hash } calls
      (∀ (i j : Nat) (n m : Node), space.nodes[i]? = some n → space.nodes[j]? = some m →
        n.situation = m.situation → i = j) ∧
      (∀ (n m : Node) (id : Nat), space.nodes[id]? = some m → m.situation = n.situation →
        space.insert n = ((id, false), space)) ∧
      (∀ n, (∀ (id : Nat) (m : Node), space.nodes[id]? = some m → m.situation ≠ n.situation) →
        (space.insert n).1 = (space.nodes.size, true) ∧ (space.insert n).2.nodes = space.nodes.push n) ∧
      ∀ (later : List Node) (id : Nat) (n : Node), space.nodes[id]? = some n →
        (space.insertAll later).nodes[id]? = some n) ∧
    ∀ (p : EncodedProblem) root calls, Expanding p (new hash root) calls →
      let space := (new hash root).insertAll calls
      space.nodes[0]? = some { situation := root } ∧
      ∀ (id : Nat) (n : Node), space.nodes[id]? = some n →
        ∃ plan, space.planTo? id = some plan ∧ StoredRun p space root plan.steps n.situation := by
  constructor
  · intro calls space
    have hindexed : space.Indexed := (indexed_empty hash).insertAll calls
    refine ⟨fun i j n m hn hm => hindexed.distinct hn hm, fun n m id => hindexed.insert_stored,
      fun n hnew => ?_, fun later id n hn => getElem?_insertAll hn later⟩
    have hnot : ¬ space.Stored n.situation := fun ⟨id, m, hm, hs⟩ => hnew id m hm hs
    rw [hindexed.insert_new hnot]
    exact ⟨rfl, rfl⟩
  · intro p root calls hexpanding space
    refine ⟨getElem?_insertAll (getElem?_new.mpr ⟨rfl, rfl⟩) calls, fun id n hn => ?_⟩
    have hgrown := (hexpanding.startingFrom root).grown (.new hash)
    exact ⟨_, hgrown.forest.planTo?_eq hn, (hgrown.forest.storedRun_planTo hn).startingFrom⟩

end SearchSpace

/-- The nodes along the plan to climb, the first of them twice. -/
def climbNodes : List Node :=
  [⟨⟨⟨1, ⟨0⟩⟩, ⟨[0, 1], ⟨[⟨2⟩, ⟨0⟩]⟩⟩⟩, some (0, .method 0)⟩,
    ⟨⟨⟨1, ⟨0⟩⟩, ⟨[0, 1], ⟨[⟨2⟩, ⟨0⟩]⟩⟩⟩, some (0, .method 0)⟩,
    ⟨⟨⟨1, ⟨0⟩⟩, ⟨[1], ⟨[⟨0⟩]⟩⟩⟩, some (1, .method 1)⟩,
    ⟨⟨⟨1, ⟨1⟩⟩, ⟨[], ⟨[]⟩⟩⟩, some (2, .action 0)⟩]

/-- The same is so where all hashes collide. -/
theorem insertAll_parent_forest_climb : ∃ P, ground climbDomain climbProblem = .ok P ∧
    let space := (SearchSpace.new (fun _ => 0) P.initial).insertAll climbNodes
    space.nodes.size = 4 ∧ space.planTo? 3 = some climbPlan ∧
      SearchSpace.StoredRun P space P.initial climbPlan.steps ⟨⟨1, ⟨1⟩⟩, ⟨[], ⟨[]⟩⟩⟩ := by
  obtain ⟨P, hP, hexpanding, hsize, hlast, hplan⟩ : ∃ P, ground climbDomain climbProblem = .ok P ∧
      SearchSpace.Expanding P (.new (fun _ => 0) P.initial) climbNodes ∧
      ((SearchSpace.new (fun _ => 0) P.initial).insertAll climbNodes).nodes.size = 4 ∧
      ((SearchSpace.new (fun _ => 0) P.initial).insertAll climbNodes).nodes[3]? =
        some ⟨⟨⟨1, ⟨1⟩⟩, ⟨[], ⟨[]⟩⟩⟩, some (2, .action 0)⟩ ∧
      ((SearchSpace.new (fun _ => 0) P.initial).insertAll climbNodes).planTo? 3 = some climbPlan :=
    exists_ground_of_any (by decide +kernel)
  obtain ⟨-, hforest⟩ := (SearchSpace.insertAll_parent_forest fun _ => 0).2 P P.initial climbNodes hexpanding
  obtain ⟨plan, hfound, hrun⟩ := hforest 3 _ hlast
  obtain rfl := Option.some.inj (hplan.symm.trans hfound)
  exact ⟨P, hP, hsize, hplan, hrun⟩

end HtnPlanner
