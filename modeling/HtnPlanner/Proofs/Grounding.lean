import HtnPlanner.Grounding
import HtnPlanner.Proofs.Encoded.Simulation
import HtnPlanner.Proofs.Lifted.Naming

/-!
The solutions of a problem are kept when it is grounded: nothing that is left out on the way was needed
for one, and nothing is let in.
-/

namespace HtnPlanner

/-- The labels are those of a run from the initial situation to a goal, and no initial task or goal rules
out that there is one. -/
def EncodedProblem.Solves (p : EncodedProblem) (labels : List Label) : Prop :=
  p.unsolvable? = none ∧
    ∃ os s, p.Run p.initial os s ∧ os.map p.label? = labels.map some ∧ p.isGoal s = true

theorem EncodedProblem.unsolvable?_eq_none {p : EncodedProblem} :
    p.unsolvable? = none ↔ p.isSolvable = true ∧ p.goal.isFalse = false := by
  have hall : p.initialTasks.findIdx? (·.isNone) = none ↔ p.isSolvable = true := by
    simp only [List.findIdx?_eq_none_iff, isSolvable, List.all_eq_true, Option.isNone_eq_false_iff]
  rw [unsolvable?, ← hall]
  cases p.initialTasks.findIdx? (·.isNone) with
  | none => simp
  | some position => simp

theorem EncodedProblem.isFalse_of_isGoal {p : EncodedProblem} {s : Situation} (h : p.isGoal s = true) :
    p.goal.isFalse = false := by
  rw [isGoal, Bool.and_eq_true, Goal.holds, List.any_eq_true] at h
  obtain ⟨-, c, hc, -⟩ := h
  exact List.isEmpty_eq_false_iff_exists_mem.mpr ⟨c, hc⟩

namespace GroundProblem

def Solves (p : GroundProblem) (labels : List Label) : Prop :=
  (∀ r ∈ p.resolved, r = true) ∧
    ∃ w, WorldRun (Ground.Step p.actions p.methods) p.initialWorld labels w ∧ w.network.tasks = [] ∧
      p.goal.Holds [] w.facts

theorem solves_ofLifted {p : LiftedProblem} (hp : p.WellFormed) {labels : List Label} :
    (ofLifted p).Solves labels ↔ p.Solves labels := by
  have hgoal : ∀ w ls, WorldRun p.Step p.initialWorld ls w →
      ((ofLifted p).goal.Holds [] w.facts ↔ p.goal.Holds [] w.facts) := by
    intro w ls h
    have hw := (LiftedProblem.tracks_initial hp).run hp h
    exact (Expr.holds_assign hw.inertia _).trans (Expr.holds_assign hw.fixed _)
  have hprimitive : ∀ a ∈ (ofLifted p).actions,
      a.groundTask ∈ ((ofLifted p).actions.map (·.groundTask)).eraseDups :=
    fun a ha => List.mem_eraseDups.mpr (List.mem_map_of_mem ha)
  constructor
  · rintro ⟨-, w, hrun, hempty, hholds⟩
    have hbound := hrun.mono fun _ _ _ h => h.mono prune_subset
    have hlifted := (LiftedProblem.run_iff_ground_run hp (LiftedProblem.tracks_initial hp)).mpr hbound
    exact ⟨w, hlifted, hempty, (hgoal w labels hlifted).mp hholds⟩
  · rintro ⟨w, hrun, hempty, hholds⟩
    have hbound := (LiftedProblem.run_iff_ground_run hp (LiftedProblem.tracks_initial hp)).mp hrun
    obtain ⟨hachievable, hpruned⟩ := achievable_of_run hprimitive hbound hempty
    refine ⟨fun r hr => ?_, w, hpruned, hempty, (hgoal w labels hrun).mpr hholds⟩
    obtain ⟨t, ht, rfl⟩ := List.mem_map.mp hr
    exact hachievable t ht

theorem solves_ofGround {p : GroundProblem} (hp : p.WellFormed) {labels : List Label} :
    (EncodedProblem.ofGround p).Solves labels ↔ p.Solves labels := by
  constructor
  · rintro ⟨hsolvable, os, s, hrun, hlabels, hgoal⟩
    have hresolved := (isSolvable_iff hp).mp (EncodedProblem.unsolvable?_eq_none.mp hsolvable).1
    obtain ⟨ls, w, hls, hworlds, hw⟩ := run_of_encoded_run hp (simulates_initial hp hresolved) hrun
    obtain rfl : ls = labels := List.map_injective_iff.mpr (fun _ _ h => Option.some.inj h) (hls.symm.trans hlabels)
    exact ⟨hresolved, w, hworlds, (isGoal_iff hp hw).mp hgoal⟩
  · rintro ⟨hresolved, w, hworlds, hgoal⟩
    obtain ⟨os, s, hlabels, hrun, hw⟩ := encoded_run_of_run hp (simulates_initial hp hresolved) hworlds
    have hisGoal := (isGoal_iff hp hw).mpr hgoal
    have hsolvable := EncodedProblem.unsolvable?_eq_none.mpr
      ⟨(isSolvable_iff hp).mpr hresolved, EncodedProblem.isFalse_of_isGoal hisGoal⟩
    exact ⟨hsolvable, os, s, hrun, hlabels, hisGoal⟩

end GroundProblem

theorem exists_lifted_of_ground {domain : Option Definition.Domain} {problem : Option Definition.Problem}
    {P : EncodedProblem} (h : ground domain problem = .ok P) :
    ∃ L : LiftedProblem, L.WellFormed ∧ P = .ofGround (.ofLifted L) := by
  obtain ⟨L, hL, rfl⟩ := Except.map_eq_ok.mp h
  exact ⟨L, LiftedProblem.wellFormed_of_ofDefinitions hL, rfl⟩

theorem wellFormed_of_ground {domain : Option Definition.Domain} {problem : Option Definition.Problem}
    {P : EncodedProblem} (h : ground domain problem = .ok P) :
    ∃ p : GroundProblem, p.WellFormed ∧ P = .ofGround p := by
  obtain ⟨L, hL, rfl⟩ := exists_lifted_of_ground h
  exact ⟨_, GroundProblem.wellFormed_ofLifted hL, rfl⟩

/-- A successful grounding neither loses nor adds a solution. -/
theorem ground_keeps_solutions {domain : Option Definition.Domain} {problem : Option Definition.Problem}
    {L : LiftedProblem} (h : LiftedProblem.ofDefinitions domain problem = .ok L) :
    ∃ P, ground domain problem = .ok P ∧ ∀ labels, P.Solves labels ↔ L.Solves labels := by
  have hL := LiftedProblem.wellFormed_of_ofDefinitions h
  refine ⟨_, by rw [ground, h]; rfl, fun labels => ?_⟩
  rw [GroundProblem.solves_ofGround (GroundProblem.wellFormed_ofLifted hL), GroundProblem.solves_ofLifted hL]

/-- A lamp is switched on once the power is, or again. -/
def lampDomain : Definition.Domain where
  name := "lamp"
  types := [⟨"object", .object⟩, ⟨"lamp", .object⟩]
  predicates := [⟨"lit", [⟨"?l", .exactly "lamp"⟩]⟩, ⟨"powered", []⟩]
  tasks := [⟨"light", [⟨"?l", .exactly "lamp"⟩]⟩]
  actions := [
    { name := "switch", parameters := [⟨"?l", .exactly "lamp"⟩],
      preconditions := [.disj [.atom ⟨"powered", []⟩, .atom ⟨"lit", [.var "?l"]⟩]],
      effects := [.add ⟨"lit", [.var "?l"]⟩] },
    { name := "plug", effects := [.add ⟨"powered", []⟩] }]
  methods := [
    { name := "directly", parameters := [⟨"?l", .exactly "lamp"⟩], task := ⟨"light", [.var "?l"]⟩,
      network := .ordered [{ task := ⟨"switch", [.var "?l"]⟩ }] },
    { name := "plugged", parameters := [⟨"?l", .exactly "lamp"⟩], task := ⟨"light", [.var "?l"]⟩,
      preconditions := [.neg (.atom ⟨"powered", []⟩)],
      network := .ordered [{ task := ⟨"plug", []⟩ }, { task := ⟨"switch", [.var "?l"]⟩ }] }]

def lampProblem : Definition.Problem where
  name := "two lamps"
  domain := "lamp"
  objects := [⟨"desk", .exactly "lamp"⟩, ⟨"floor", .exactly "lamp"⟩]
  htn := {
    subtasks := [{ task := ⟨"light", [.name "desk"]⟩ }, { task := ⟨"light", [.name "floor"]⟩ }] }
  goal := [.atom ⟨"lit", [.name "desk"]⟩]

theorem exists_ofDefinitions_lamp : ∃ L, LiftedProblem.ofDefinitions lampDomain lampProblem = .ok L := by
  obtain ⟨L, hL, -⟩ : ∃ L, LiftedProblem.ofDefinitions lampDomain lampProblem = .ok L ∧ True :=
    exists_ok_of_any (by decide +kernel)
  exact ⟨L, hL⟩

theorem ground_keeps_solutions_lamp : ∃ L, LiftedProblem.ofDefinitions lampDomain lampProblem = .ok L ∧
    ∃ P, ground lampDomain lampProblem = .ok P ∧ ∀ labels, P.Solves labels ↔ L.Solves labels := by
  obtain ⟨L, hL⟩ := exists_ofDefinitions_lamp
  exact ⟨L, hL, ground_keeps_solutions hL⟩

end HtnPlanner
