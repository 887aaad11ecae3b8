import HtnPlanner.Proofs.Search.Shortest

/-!
Limits are checked once before each expansion, and the first check that finds one exceeded ends the search.
Nothing else depends on what the checks find: a search within limits is the search without limits, up to there.
-/

namespace HtnPlanner

variable {e : Engine} {p : EncodedProblem} {s : Search} {answers : Nat → Option Limit}
  {checks : List Statistics} {fuel : Nat}

def Progress.statistics : Progress → Statistics
  | .running s => s.statistics
  | .finished _ statistics => statistics

def Progress.limit? : Progress → Option Limit
  | .finished (.exceeded limit) _ => some limit
  | _ => none

theorem Progress.ne_exceeded {outcome : Outcome} {stats : Statistics}
    (h : (finished outcome stats).limit? = none) (l : Limit) : outcome ≠ .exceeded l := by
  rintro rfl
  simp [limit?] at h

/-- Work that checks the limits. The counters at the time of each check are written down. -/
abbrev Checking := StateM (List Statistics)

/-- The first check finds the first of the answers, the second check the second, and so on. -/
def checkLimits (answers : Nat → Option Limit) (statistics : Statistics) : Checking (Option Limit) :=
  fun checks => (answers checks.length, checks ++ [statistics])

namespace Engine

/-- A step of the depth-first search, which checks the limits only where it is about to expand. -/
def checkedDepthFirst (p : EncodedProblem) (answers : Nat → Option Limit) (s : Search) : Checking Progress :=
  match s.frontier with
  | [] => return .finished .unsolvable s.statistics
  | id :: rest => do
    let here := s.space.situation id
    if p.isGoal here then return .finished (.success (s.space.planTo id)) s.statistics
    if let some limit ← checkLimits answers s.statistics then return .finished (.exceeded limit) s.statistics
    let cs := p.successors here
    let (children, s) := (s.countExpanded cs).storeAll id cs
    return .running { s with frontier := children ++ rest }

/-- A step of the breadth-first search, which checks the limits for each node of the frontier. -/
def checkedBreadthFirst (p : EncodedProblem) (answers : Nat → Option Limit) (s : Search) : Checking Progress :=
  match s.frontier with
  | [] => return .finished .unsolvable s.statistics
  | id :: rest => do
    if let some limit ← checkLimits answers s.statistics then return .finished (.exceeded limit) s.statistics
    let cs := p.successors (s.space.situation id)
    return ({ s with frontier := rest }.countExpanded cs).enqueue p id cs

def checkedStep : Engine → EncodedProblem → (Nat → Option Limit) → Search → Checking Progress
  | depthFirst => checkedDepthFirst
  | breadthFirst => checkedBreadthFirst

def checkedRun (e : Engine) (p : EncodedProblem) (answers : Nat → Option Limit) :
    Nat → Progress → Checking (Option (Outcome × Statistics))
  | _, .finished outcome statistics => return some (outcome, statistics)
  | 0, .running _ => return none
  | fuel + 1, .running s => do e.checkedRun p answers fuel (← e.checkedStep p answers s)

/-- What a search returns within `fuel` steps, and the counters at each of its checks. -/
def checkedSearch (e : Engine) (p : EncodedProblem) (answers : Nat → Option Limit) (fuel : Nat) :
    Option (Outcome × Statistics) × List Statistics :=
  (e.checkedRun p answers fuel (e.start p)).run []

end Engine

/-! ### The counters at a check -/

theorem Search.expanded_store (s : Search) (parent : Nat) (c : Successor) :
    (s.store parent c).2.statistics.expanded = s.statistics.expanded := by
  rcases hi : s.space.insert ⟨c.situation, some (parent, c.operator)⟩ with ⟨⟨id, _ | _⟩, space⟩
  · simp [store, hi]
  · simp [store, hi]

theorem Search.expanded_storeAll (s : Search) (parent : Nat) (cs : List Successor) :
    (s.storeAll parent cs).2.statistics.expanded = s.statistics.expanded := by
  induction cs generalizing s with
  | nil => rfl
  | cons c cs ih =>
      rw [storeAll]
      exact (ih _).trans (expanded_store s parent c)

theorem Search.enqueue_keeps (p : EncodedProblem) (parent : Nat) (s : Search) (cs : List Successor) :
    (enqueue p parent s cs).limit? = none ∧
      (enqueue p parent s cs).statistics.expanded = s.statistics.expanded := by
  induction cs generalizing s with
  | nil => exact ⟨rfl, rfl⟩
  | cons c cs ih =>
      have hstore := expanded_store s parent c
      rw [enqueue]
      rcases h : s.store parent c with ⟨_ | id, t⟩ <;> rw [h] at hstore
      · exact ⟨(ih t).1, (ih t).2.trans hstore⟩
      · dsimp only
        split
        · exact ⟨rfl, hstore⟩
        · exact ⟨(ih _).1, (ih _).2.trans hstore⟩

namespace Engine

/-- A step ends the search without a check, or it makes one check: if that finds no limit exceeded, a node is
expanded. -/
theorem checkedStep_cases (e : Engine) (p : EncodedProblem) (s : Search) :
    (∃ outcome, (∀ l, outcome ≠ .exceeded l) ∧
      (∀ limit, e.step p limit s = .finished outcome s.statistics) ∧
      ∀ answers checks, e.checkedStep p answers s checks = (.finished outcome s.statistics, checks)) ∨
    (e.step p none s).limit? = none ∧
      (e.step p none s).statistics.expanded = s.statistics.expanded + 1 ∧
      (∀ l, e.step p (some l) s = .finished (.exceeded l) s.statistics) ∧
      ∀ answers checks, e.checkedStep p answers s checks =
        (e.step p (answers checks.length) s, checks ++ [s.statistics]) := by
  cases e with
  | depthFirst =>
      simp only [checkedStep, step, checkedDepthFirst, stepDepthFirst]
      cases hf : s.frontier with
      | nil => exact Or.inl ⟨.unsolvable, by simp, fun _ => rfl, fun _ _ => rfl⟩
      | cons id rest =>
          by_cases hgoal : p.isGoal (s.space.situation id) = true
          · simp only [if_pos hgoal]
            exact Or.inl ⟨.success (s.space.planTo id), by simp, fun _ => rfl, fun _ _ => rfl⟩
          · simp only [if_neg hgoal]
            refine Or.inr ⟨rfl, ?_, by simp, fun answers checks => ?_⟩
            · exact Search.expanded_storeAll (s.countExpanded _) id _
            · cases h : answers checks.length <;> simp only [StateT.bind, bind, checkLimits, h] <;> rfl
  | breadthFirst =>
      simp only [checkedStep, step, checkedBreadthFirst, stepBreadthFirst]
      cases hf : s.frontier with
      | nil => exact Or.inl ⟨.unsolvable, by simp, fun _ => rfl, fun _ _ => rfl⟩
      | cons id rest =>
          let cs := p.successors (s.space.situation id)
          obtain ⟨hlimit, hexpanded⟩ := Search.enqueue_keeps p id ({ s with frontier := rest }.countExpanded cs) cs
          refine Or.inr ⟨hlimit, hexpanded, fun _ => rfl, fun answers checks => ?_⟩
          cases h : answers checks.length <;> simp only [StateT.bind, bind, checkLimits, h] <;> rfl

/-! ### A whole search -/

@[simp]
theorem checkedRun_finished (answers : Nat → Option Limit) (fuel : Nat) (outcome : Outcome) (stats : Statistics)
    (checks : List Statistics) :
    e.checkedRun p answers fuel (.finished outcome stats) checks = (some (outcome, stats), checks) := by
  cases fuel <;> rfl

theorem checkedRun_succ (e : Engine) (p : EncodedProblem) (answers : Nat → Option Limit) (fuel : Nat)
    (s : Search) (checks : List Statistics) :
    e.checkedRun p answers (fuel + 1) (.running s) checks =
      e.checkedRun p answers fuel (e.checkedStep p answers s checks).1 (e.checkedStep p answers s checks).2 :=
  rfl

/-- The checks come one for each expansion, so the next answer is that for the number of expansions. -/
theorem fst_checkedRun {g : Progress} (h : checks.length = g.statistics.expanded) :
    (e.checkedRun p answers fuel g checks).1 = e.run p answers fuel g := by
  induction fuel generalizing g checks with
  | zero => cases g <;> rfl
  | succ fuel ih =>
      cases g with
      | finished outcome stats => simp
      | running s =>
          have h : checks.length = s.statistics.expanded := h
          rw [checkedRun_succ, run, ← h]
          rcases checkedStep_cases e p s with
            ⟨outcome, -, hstep, hchecked⟩ | ⟨-, hexpanded, hstruck, hchecked⟩
          · simp [hchecked, hstep]
          · rw [hchecked]
            cases answers checks.length with
            | some l => simp [hstruck]
            | none => exact ih (by rw [hexpanded, List.length_append, h, List.length_singleton])

theorem prefix_checkedRun (e : Engine) (p : EncodedProblem) (answers : Nat → Option Limit) (fuel : Nat)
    (g : Progress) (checks : List Statistics) : checks <+: (e.checkedRun p answers fuel g checks).2 := by
  induction fuel generalizing g checks with
  | zero => cases g <;> exact List.prefix_rfl
  | succ fuel ih =>
      cases g with
      | finished outcome stats => simp
      | running s =>
          rw [checkedRun_succ]
          rcases checkedStep_cases e p s with ⟨outcome, -, -, hchecked⟩ | ⟨-, -, -, hchecked⟩
          · simp [hchecked]
          · rw [hchecked]
            exact (List.prefix_append checks [s.statistics]).trans (ih _ _)

/-- Each check came after one expansion more than the check before, and a search that returned expanded after
each of its checks. -/
structure Tallied (r : Option (Outcome × Statistics) × List Statistics) : Prop where
  checks : r.2.map (·.expanded) = List.range r.2.length
  returned : ∀ outcome stats, r.1 = some (outcome, stats) →
    r.2.length = stats.expanded ∧ ∀ l, outcome ≠ .exceeded l

theorem tallied_finished {outcome : Outcome} {stats : Statistics} (hne : ∀ l, outcome ≠ .exceeded l)
    (hchecks : checks.map (·.expanded) = List.range stats.expanded) :
    Tallied (some (outcome, stats), checks) := by
  have hlength : checks.length = stats.expanded := by simpa using congrArg List.length hchecks
  refine ⟨hlength ▸ hchecks, ?_⟩
  rintro _ _ ⟨rfl, rfl⟩
  exact ⟨hlength, hne⟩

theorem tallied_checkedRun {g : Progress} (hlimit : g.limit? = none)
    (hchecks : checks.map (·.expanded) = List.range g.statistics.expanded) :
    Tallied (e.checkedRun p (fun _ => none) fuel g checks) := by
  induction fuel generalizing g checks with
  | zero =>
      cases g with
      | finished outcome stats => exact tallied_finished (Progress.ne_exceeded hlimit) hchecks
      | running s =>
          have hlength : checks.length = s.statistics.expanded := by
            simpa [Progress.statistics] using congrArg List.length hchecks
          exact ⟨hlength ▸ hchecks, fun _ _ h => (Option.some_ne_none _ h.symm).elim⟩
  | succ fuel ih =>
      cases g with
      | finished outcome stats => exact tallied_finished (Progress.ne_exceeded hlimit) hchecks
      | running s =>
          rw [checkedRun_succ]
          rcases checkedStep_cases e p s with
            ⟨outcome, hne, -, hchecked⟩ | ⟨hnone, hexpanded, -, hchecked⟩
          · rw [hchecked, checkedRun_finished]
            exact tallied_finished hne hchecks
          · rw [hchecked]
            refine ih hnone ?_
            rw [hexpanded, List.range_succ, List.map_append, hchecks]
            rfl

/-- `cut` is all of `whole`, or it ends at the first check to find a limit exceeded. -/
inductive Cut (answers : Nat → Option Limit) (start : Nat)
    (whole : Option (Outcome × Statistics) × List Statistics) :
    Option (Outcome × Statistics) × List Statistics → Prop
  | nowhere (none_exceeded : ∀ k, start ≤ k → k < whole.2.length → answers k = none) :
      Cut answers start whole whole
  | check {k : Nat} {limit : Limit} {stats : Statistics}
      (none_before : ∀ j, start ≤ j → j < k → answers j = none)
      (exceeded : answers k = some limit) (counters : whole.2[k]? = some stats) :
      Cut answers start whole (some (.exceeded limit, stats), whole.2.take (k + 1))

theorem Cut.of_no_check (result : Option (Outcome × Statistics)) :
    Cut answers checks.length (result, checks) (result, checks) :=
  .nowhere fun _ hk hlt => absurd hlt (Nat.not_lt.mpr hk)

theorem Cut.of_succ {start : Nat} {whole cut : Option (Outcome × Statistics) × List Statistics}
    (h : Cut answers (start + 1) whole cut) (hstart : answers start = none) : Cut answers start whole cut := by
  have hall : ∀ {k}, start ≤ k → (start + 1 ≤ k → answers k = none) → answers k = none := by
    intro k hk hlater
    rcases Nat.eq_or_lt_of_le hk with rfl | hlt
    · exact hstart
    · exact hlater hlt
  cases h with
  | nowhere hnone => exact .nowhere fun k hk hlt => hall hk fun hk => hnone k hk hlt
  | check hbefore hexceeded hcounters =>
      exact .check (fun j hj hlt => hall hj fun hj => hbefore j hj hlt) hexceeded hcounters

theorem cut_checkedRun (e : Engine) (p : EncodedProblem) (answers : Nat → Option Limit) (fuel : Nat)
    (g : Progress) (checks : List Statistics) :
    Cut answers checks.length (e.checkedRun p (fun _ => none) fuel g checks)
      (e.checkedRun p answers fuel g checks) := by
  induction fuel generalizing g checks with
  | zero => cases g <;> exact .of_no_check _
  | succ fuel ih =>
      cases g with
      | finished outcome stats => exact .of_no_check _
      | running s =>
          rw [checkedRun_succ, checkedRun_succ]
          rcases checkedStep_cases e p s with ⟨outcome, -, -, hchecked⟩ | ⟨-, -, hstruck, hchecked⟩
          · rw [hchecked, hchecked, checkedRun_finished, checkedRun_finished]
            exact .of_no_check _
          · simp only [hchecked]
            cases ha : answers checks.length with
            | none =>
                have hcut := ih (e.step p none s) (checks ++ [s.statistics])
                rw [List.length_append, List.length_singleton] at hcut
                exact hcut.of_succ ha
            | some limit =>
                rw [hstruck, checkedRun_finished]
                obtain ⟨later, hlater⟩ := prefix_checkedRun e p (fun _ => none) fuel (e.step p none s)
                  (checks ++ [s.statistics])
                have htake : ((checks ++ [s.statistics]) ++ later).take (checks.length + 1) =
                    checks ++ [s.statistics] := List.take_left' (by simp)
                rw [hlater] at htake
                have hcounters : (e.checkedRun p (fun _ => none) fuel (e.step p none s)
                    (checks ++ [s.statistics])).2[checks.length]? = some s.statistics := by
                  simp [← hlater]
                have hbefore : ∀ j, checks.length ≤ j → j < checks.length → answers j = none :=
                  fun j hj hlt => absurd hlt (Nat.not_lt.mpr hj)
                have hcut := Cut.check hbefore ha hcounters
                rwa [htake] at hcut

/-- A run makes a check in every step that is not its last. -/
theorem checkedRun_returns {k : Nat} (hk : answers k ≠ none) {g : Progress} (hfuel : k < checks.length + fuel)
    (hle : checks.length ≤ k) : (e.checkedRun p answers fuel g checks).1.isSome = true := by
  induction fuel generalizing g checks with
  | zero => omega
  | succ fuel ih =>
      cases g with
      | finished outcome stats => simp
      | running s =>
          rw [checkedRun_succ]
          rcases checkedStep_cases e p s with ⟨outcome, -, -, hchecked⟩ | ⟨-, -, hstruck, hchecked⟩
          · simp [hchecked]
          · rw [hchecked]
            cases ha : answers checks.length with
            | some limit => simp [hstruck]
            | none =>
                have hne : checks.length ≠ k := by rintro rfl; exact hk ha
                refine ih ?_ ?_
                · rw [List.length_append, List.length_singleton]
                  omega
                · rw [List.length_append, List.length_singleton]
                  omega

theorem start_fresh (e : Engine) (p : EncodedProblem) :
    (e.start p).limit? = none ∧ (e.start p).statistics.expanded = 0 := by
  rcases start_cases e p with ⟨-, hs⟩ | ⟨-, hs⟩ | ⟨-, hs⟩ <;> rw [hs] <;> exact ⟨rfl, rfl⟩

theorem search_eq_checkedSearch (e : Engine) (p : EncodedProblem) (answers : Nat → Option Limit) (fuel : Nat) :
    e.search p answers fuel = (e.checkedSearch p answers fuel).1 :=
  have hchecks : ([] : List Statistics).length = (e.start p).statistics.expanded := (start_fresh e p).2.symm
  (fst_checkedRun hchecks).symm

theorem tallied_checkedSearch (e : Engine) (p : EncodedProblem) (fuel : Nat) :
    Tallied (e.checkedSearch p (fun _ => none) fuel) := by
  obtain ⟨hlimit, hexpanded⟩ := start_fresh e p
  exact tallied_checkedRun hlimit (by rw [hexpanded]; rfl)

/-- Whatever the checks find, a search within limits is the search without limits, cut at the first check to
find one exceeded. If it answers success or unsolvable, the search without limits gives the same answer with the
same counters. Else it answers the first limit that was exceeded, with the counters that the search without
limits has at that check, and all checks up to there came one before each expansion. It does return if any limit
is exceeded. -/
theorem search_cut_by_limits (e : Engine) (p : EncodedProblem) (answers : Nat → Option Limit) :
    (∀ fuel, e.search p answers fuel = (e.checkedSearch p answers fuel).1) ∧
    (∀ fuel outcome stats checks, e.checkedSearch p answers fuel = (some (outcome, stats), checks) →
      (∀ l, outcome ≠ .exceeded l) →
        e.search p (fun _ => none) fuel = some (outcome, stats) ∧
        checks.map (·.expanded) = List.range stats.expanded) ∧
    (∀ fuel limit stats checks, e.checkedSearch p answers fuel = (some (.exceeded limit, stats), checks) →
      ∃ k, answers k = some limit ∧ (∀ j < k, answers j = none) ∧
        (e.checkedSearch p (fun _ => none) fuel).2[k]? = some stats ∧
        checks.map (·.expanded) = List.range (k + 1)) ∧
    ((∃ k, answers k ≠ none) → ∃ n, ∀ fuel ≥ n, ∃ r, e.search p answers fuel = some r) := by
  have hcut : ∀ fuel, Cut answers 0 (e.checkedSearch p (fun _ => none) fuel) (e.checkedSearch p answers fuel) :=
    fun fuel => cut_checkedRun e p answers fuel (e.start p) []
  refine ⟨search_eq_checkedSearch e p answers, fun fuel outcome stats checks h hne => ?_,
    fun fuel limit stats checks h => ?_, fun ⟨k, hk⟩ => ⟨k + 1, fun fuel hfuel => ?_⟩⟩
  · have hcut := hcut fuel
    have htallied := tallied_checkedSearch e p fuel
    rw [search_eq_checkedSearch]
    rw [h] at hcut
    generalize e.checkedSearch p (fun _ => none) fuel = whole at hcut htallied ⊢
    cases hcut with
    | nowhere hnone => exact ⟨rfl, by rw [htallied.checks, (htallied.returned _ _ rfl).1]⟩
    | check => exact absurd rfl (hne _)
  · have hcut := hcut fuel
    have htallied := tallied_checkedSearch e p fuel
    rw [h] at hcut
    generalize e.checkedSearch p (fun _ => none) fuel = whole at hcut htallied ⊢
    cases hcut with
    | nowhere => exact absurd rfl ((htallied.returned _ _ rfl).2 limit)
    | @check k _ _ hbefore hexceeded hcounters =>
        have hlt : k < whole.2.length := (List.getElem?_eq_some_iff.mp hcounters).1
        refine ⟨k, hexceeded, fun j hj => hbefore j (Nat.zero_le j) hj, hcounters, ?_⟩
        rw [List.map_take, htallied.checks, List.take_range, Nat.min_eq_left hlt]
  · rw [search_eq_checkedSearch]
    exact Option.isSome_iff_exists.mp (checkedRun_returns hk (by simpa using hfuel) (Nat.zero_le k))

end Engine

/-- Depth first there is always another climb to begin with, and nothing but a limit ends the search. -/
theorem search_cut_by_limits_climb : ∃ P plan, ground climbDomain climbProblem = .ok P ∧
    Engine.depthFirst.checkedSearch P (fun k => if k = 2 then some .time else none) 3 =
      (some (.exceeded .time, ⟨2, 4, 0, 0, 4⟩), [⟨0, 0, 0, 0, 0⟩, ⟨1, 2, 0, 0, 2⟩, ⟨2, 4, 0, 0, 4⟩]) ∧
    (Engine.depthFirst.checkedSearch P (fun _ => none) 3).2[2]? = some ⟨2, 4, 0, 0, 4⟩ ∧
    Engine.breadthFirst.search P (fun k => if k = 5 then some .memory else none) 5 =
      some (.success plan, ⟨5, 7, 0, 1, 6⟩) ∧
    Engine.breadthFirst.search P (fun _ => none) 5 = some (.success plan, ⟨5, 7, 0, 1, 6⟩) := by
  obtain ⟨P, hP, hdepth, hbreadth⟩ : ∃ P, ground climbDomain climbProblem = .ok P ∧
      Engine.depthFirst.checkedSearch P (fun k => if k = 2 then some .time else none) 3 =
        (some (.exceeded .time, ⟨2, 4, 0, 0, 4⟩), [⟨0, 0, 0, 0, 0⟩, ⟨1, 2, 0, 0, 2⟩, ⟨2, 4, 0, 0, 4⟩]) ∧
      Engine.breadthFirst.checkedSearch P (fun k => if k = 5 then some .memory else none) 5 =
        (some (.success climbPlan, ⟨5, 7, 0, 1, 6⟩),
          [⟨0, 0, 0, 0, 0⟩, ⟨1, 2, 0, 0, 2⟩, ⟨2, 4, 0, 0, 4⟩, ⟨3, 4, 0, 0, 4⟩, ⟨4, 6, 0, 0, 6⟩]) :=
    exists_ground_of_any (by decide +kernel)
  obtain ⟨-, -, hexceeded, -⟩ :=
    Engine.search_cut_by_limits .depthFirst P fun k => if k = 2 then some .time else none
  obtain ⟨k, hk, -, hcounters, -⟩ := hexceeded _ _ _ _ hdepth
  obtain rfl : k = 2 := by
    by_contra hne
    simp [hne] at hk
  obtain ⟨hsearch, hsame, -, -⟩ :=
    Engine.search_cut_by_limits .breadthFirst P fun k => if k = 5 then some .memory else none
  refine ⟨P, climbPlan, hP, hdepth, hcounters, ?_, (hsame _ _ _ _ hbreadth (by simp)).1⟩
  rw [hsearch, hbreadth]

end HtnPlanner
