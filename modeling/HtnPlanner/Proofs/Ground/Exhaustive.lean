import HtnPlanner.Proofs.Ground.Enumeration
import HtnPlanner.Proofs.Ground.Instances
import HtnPlanner.Proofs.Grounding

/-!
The ground actions are those that one gets by trying all constants for all parameters. What is given up on
the way is false in the end, and the order is the same.
-/

namespace HtnPlanner

/-- The tuples of constants of the types, in lexicographic order. -/
def Symbols.assignments (s : Symbols) : List Nat → List (List Nat)
  | [] => [[]]
  | t :: ts => (s.domain t).flatMap fun c => (s.assignments ts).map (c :: ·)

namespace LiftedProblem

/-- The instances of an action for all tuples of constants, variant by variant, without those that are known
to be false. -/
def exhaustiveInstances (p : LiftedProblem) (a : Schema.Action) : List Schema.Action :=
  a.precondition.variants.flatMap fun v =>
    ((p.symbols.assignments a.parameters).map fun b =>
      { a.instantiate b with precondition := (v.subst b).assign p.fixedValue }).filter (·.precondition != .bottom)

def exhaustiveActions (p : LiftedProblem) : List Schema.Action :=
  (p.actions.flatMap p.exhaustiveInstances).eraseDups

variable {p : LiftedProblem} {parameters b : List Nat}

theorem mem_assignments : b ∈ p.symbols.assignments parameters ↔ p.Accepts parameters b := by
  induction parameters generalizing b with
  | nil => simp [Symbols.assignments, Accepts]
  | cons t ts ih =>
      simp only [Symbols.assignments, List.mem_flatMap, List.mem_map, ih]
      constructor
      · rintro ⟨c, hc, cs, hcs, rfl⟩
        exact .cons hc hcs
      · rintro (_ | ⟨hc, hcs⟩)
        exact ⟨_, hc, _, hcs, rfl⟩

/-- With no checks, and the first slots bound, the binder goes through the tuples for the others. -/
theorem extend_nil_eq (fixed : Fact → Option Bool) (pre parameters : List Nat) :
    (p.binder fixed).extend [] (parameters.zipIdx pre.length) (pre.map some ++ List.replicate parameters.length none) =
      (p.symbols.assignments parameters).map (pre ++ ·) := by
  induction parameters generalizing pre with
  | nil => simp [Binder.extend, Symbols.assignments]
  | cons t ts ih =>
      have hunbound : (pre.map some ++ List.replicate (ts.length + 1) none)[pre.length]?.join = none := by
        simp
      have hset : ∀ c, (pre.map some ++ List.replicate (ts.length + 1) none).set pre.length (some c) =
          (pre ++ [c]).map some ++ List.replicate ts.length none := by
        intro c
        simp [List.replicate_succ]
      rw [List.zipIdx_cons, List.length_cons, Binder.extend_nil_cons hunbound, Symbols.assignments, List.map_flatMap]
      apply List.flatMap_congr
      intro c _
      have hrest := ih (pre ++ [c])
      rw [List.length_append, List.length_singleton] at hrest
      rw [hset, hrest, List.map_map]
      apply List.map_congr_left
      simp

theorem assignments_eq (fixed : Fact → Option Bool) (parameters : List Nat) :
    (p.binder fixed).extend [] parameters.zipIdx (List.replicate parameters.length none) =
      p.symbols.assignments parameters := by
  simpa using extend_nil_eq fixed [] parameters

theorem assignments_lt (h : p.symbols.Settled) : (p.symbols.assignments parameters).Pairwise (· < ·) := by
  rw [← assignments_eq p.fixedValue]
  exact Binder.extend_zipIdx_lt h.ascending (List.length_replicate ..)

theorem decides_binder (hp : p.WellFormed) {fixed : Fact → Option Bool}
    (hfixed : ∀ f, p.fixedValue f = some false → fixed f = some false) {v : Expr}
    (h : v.Fits p.symbols parameters.length) :
    (p.binder fixed).Decides (v.conjuncts.filterMap Expr.check?) parameters.length := by
  have hatom : ∀ a, ⟨true, .atom a⟩ ∈ v.conjuncts.filterMap Expr.check? →
      Expr.Fits p.symbols parameters.length (.atom a) := by
    intro a ha
    obtain ⟨e, he, hec⟩ := List.mem_filterMap.mp ha
    obtain rfl : e = .atom a := Expr.check?_eq_some hec
    exact h.conjuncts _ he
  refine ⟨indexed_table _, fun f hclosed hf => ?_, fun a ha => ?_, fun a ha i hi => ?_⟩
  · exact hfixed f (fixedValue_of_closed hclosed fun hinit => hf (mem_table hp hinit))
  · exact arity_le_of_fits (hatom a ha)
  · exact Atom.Fits.args (hatom a ha) _ hi

theorem actionInstances_eq (hp : p.WellFormed) {a : Schema.Action} {v : Expr}
    (h : v.Fits p.symbols a.parameters.length) :
    (p.binder p.fixedValue).actionInstances { a with precondition := v } =
      ((p.symbols.assignments a.parameters).map fun b =>
        { a.instantiate b with precondition := (v.subst b).assign p.fixedValue }).filter
          (·.precondition != .bottom) := by
  rw [Binder.actionInstances, Binder.bindings_eq_filter (decides_binder hp (fun _ hf => hf) h)
    (List.length_replicate ..), assignments_eq,
    List.filterMap_filter, ← List.filterMap_eq_filter, List.filterMap_map]
  apply List.filterMap_congr
  intro b _
  have hfixed : (p.binder p.fixedValue).fixed = p.fixedValue := rfl
  rw [hfixed, ground?_eq]
  by_cases hbottom : (v.subst b).assign p.fixedValue = .bottom
  · simp [hbottom, Option.guard]
  · have hconsistent : (p.binder p.fixedValue).isConsistent (v.conjuncts.filterMap Expr.check?) (b.map some) =
        true := Binder.isConsistent_of_assign hbottom
    simp [hconsistent, hbottom, Option.guard]

/-- Giving up partial bindings early loses no ground action, adds none and does not change their order. -/
theorem groundActions_eq_exhaustive {domain : Option Definition.Domain} {problem : Option Definition.Problem}
    {L : LiftedProblem} (h : LiftedProblem.ofDefinitions domain problem = .ok L) :
    L.groundActions = L.exhaustiveActions ∧
    ∀ types, (L.symbols.assignments types).Pairwise (· < ·) ∧
      ∀ b, b ∈ L.symbols.assignments types ↔ List.Forall₂ (fun t c => c ∈ L.symbols.domain t) types b := by
  have hL := LiftedProblem.wellFormed_of_ofDefinitions h
  refine ⟨?_, fun types => ⟨assignments_lt hL.settled, fun b => mem_assignments⟩⟩
  rw [groundActions, exhaustiveActions]
  congr 1
  apply List.flatMap_congr
  intro a ha
  apply List.flatMap_congr
  intro v hv
  exact actionInstances_eq hL (Expr.Over.of_mem_variants (hL.actions a ha).precondition hv).2

theorem groundActions_eq_exhaustive_lamp : ∃ L, LiftedProblem.ofDefinitions lampDomain lampProblem = .ok L ∧
    L.groundActions = L.exhaustiveActions := by
  obtain ⟨L, hL⟩ := exists_ofDefinitions_lamp
  exact ⟨L, hL, (groundActions_eq_exhaustive hL).1⟩

end LiftedProblem

end HtnPlanner
