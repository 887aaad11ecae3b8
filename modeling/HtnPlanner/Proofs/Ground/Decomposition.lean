import HtnPlanner.Proofs.Ground.Exhaustive
import HtnPlanner.Proofs.Ground.Invariance

/-!
Methods are grounded for exactly those compound tasks that come up when the initial tasks are decomposed, and
for all bindings of the right types with which the precondition is not known to be false. The search for the
tasks ends, also where a method leads back to its own task.
-/

namespace HtnPlanner

namespace LiftedProblem

variable {p : LiftedProblem} {fixed : Fact → Option Bool} {m' : Schema.Method} {t : GroundTask}

/-- The compound tasks to which one gets from the initial ones by ground methods. -/
inductive ComesUp (p : LiftedProblem) (fixed : Fact → Option Bool) : GroundTask → Prop
  | initial {t : GroundTask} (known : t ∈ p.initialTasks) (compound : p.symbols.isPrimitive t.symbol = false) :
      ComesUp p fixed t
  | subtask {t u : GroundTask} {m m' : Schema.Method} {v : Expr} {b : List Nat} (above : ComesUp p fixed t)
      (grounds : p.GroundsMethod fixed m v b m') (decomposes : m'.groundTask? = some t)
      (known : u ∈ m'.subtasks) (compound : p.symbols.isPrimitive u.symbol = false) : ComesUp p fixed u

theorem ComesUp.fits (h : p.ComesUp fixed t) (hp : p.WellFormed) : t.Fits p.symbols := by
  cases h with
  | initial known _ => exact (initialTasks_spec hp).2 _ known
  | subtask _ grounds _ known _ => exact (grounds.subtasks hp).2.2.1 _ known

/-! ### The methods of a task -/

theorem mem_methodsOf_iff (hp : p.WellFormed) (hfixed : ∀ f, p.fixedValue f = some false → fixed f = some false)
    (ht : t.Fits p.symbols) : m' ∈ (p.binder fixed).methodsOf p.symbols p.methods t ↔
      m'.groundTask? = some t ∧ ∃ m v b, p.GroundsMethod fixed m v b m' := by
  refine ⟨groundsMethod_of_mem_methodsOf hp ht, ?_⟩
  rintro ⟨htask, m, v, b, hm, hv, hb, hne, rfl⟩
  obtain ⟨hsymbol, binding, hunify, hlength, hbinds⟩ := exists_binds hp ht hm hb htask
  have hfits := (Expr.Over.of_mem_variants (hp.methods m hm).precondition hv).2
  have hmem := Binder.mem_bindings_of_assign (decides_binder hp hfixed hfits) hlength hbinds hne
  exact mem_methodsOf.mpr ⟨m, hm, hsymbol, v, hv, binding, hunify, b, hmem, hne, rfl⟩

/-! ### The tasks -/

theorem mem_compoundTasks_iff (hp : p.WellFormed)
    (hfixed : ∀ f, p.fixedValue f = some false → fixed f = some false) :
    t ∈ p.compoundTasks (p.binder fixed) ↔ p.ComesUp fixed t := by
  constructor
  · change t ∈ reach (p.compoundSubtasks fixed) _ _ → _
    refine of_mem_reach (fun t ht => ?_) (fun t ht u hu => ?_) t
    · obtain ⟨known, compound⟩ := Symbols.mem_compound.mp ht
      exact .initial known compound
    · obtain ⟨⟨m', hm', known⟩, compound⟩ := mem_compoundSubtasks.mp hu
      obtain ⟨decomposes, m, v, b, grounds⟩ := groundsMethod_of_mem_methodsOf hp (ht.fits hp) hm'
      exact .subtask ht grounds decomposes known compound
  · obtain ⟨-, hinitial, hclosed⟩ := compoundTasks_spec hp fixed
    intro h
    induction h with
    | initial known compound => exact hinitial _ known compound
    | subtask above grounds decomposes known compound ih =>
        have hm' := (mem_methodsOf_iff hp hfixed (above.fits hp)).mpr ⟨decomposes, _, _, _, grounds⟩
        exact hclosed _ ih _ hm' _ known compound

theorem mem_groundMethods_iff (hp : p.WellFormed)
    (hfixed : ∀ f, p.fixedValue f = some false → fixed f = some false) :
    m' ∈ p.groundMethods fixed ↔
      ∃ m v b t, p.GroundsMethod fixed m v b m' ∧ m'.groundTask? = some t ∧ p.ComesUp fixed t := by
  rw [mem_groundMethods]
  constructor
  · rintro ⟨t, ht, hm'⟩
    have habove := (mem_compoundTasks_iff hp hfixed).mp ht
    obtain ⟨htask, m, v, b, hground⟩ := (mem_methodsOf_iff hp hfixed (habove.fits hp)).mp hm'
    exact ⟨m, v, b, t, hground, htask, habove⟩
  · rintro ⟨m, v, b, t, hground, htask, habove⟩
    refine ⟨t, (mem_compoundTasks_iff hp hfixed).mpr habove, ?_⟩
    exact (mem_methodsOf_iff hp hfixed (habove.fits hp)).mpr ⟨htask, m, v, b, hground⟩

/-- As many rounds as there are ground tasks leave nothing on the queue. -/
theorem compoundTasks_drained (hp : p.WellFormed) (fixed : Fact → Option Bool) :
    (reachStep (p.compoundSubtasks fixed))^[p.symbols.groundTaskCount]
        ((p.symbols.compound p.initialTasks).eraseDups, (p.symbols.compound p.initialTasks).eraseDups) =
      ([], p.compoundTasks (p.binder fixed)) := by
  obtain ⟨hstart, hnext, hbound⟩ := compoundTasks_within hp fixed
  exact reach_drained hstart hnext hbound

/-- The ground methods are, once each, the instances of methods for the tasks that come up, and the search for
these tasks ends. -/
theorem groundMethods_exact {domain : Option Definition.Domain} {problem : Option Definition.Problem}
    {L : LiftedProblem} (h : LiftedProblem.ofDefinitions domain problem = .ok L) :
    (L.groundMethods (GroundProblem.ofLifted L).inertia.fixedValue).Nodup ∧
    (∀ m', m' ∈ L.groundMethods (GroundProblem.ofLifted L).inertia.fixedValue ↔
      ∃ m v b t, L.GroundsMethod (GroundProblem.ofLifted L).inertia.fixedValue m v b m' ∧
        m'.groundTask? = some t ∧ L.ComesUp (GroundProblem.ofLifted L).inertia.fixedValue t) ∧
    ∃ rounds ≤ L.symbols.groundTaskCount,
      (reachStep (L.compoundSubtasks (GroundProblem.ofLifted L).inertia.fixedValue))^[rounds]
          ((L.symbols.compound L.initialTasks).eraseDups, (L.symbols.compound L.initialTasks).eraseDups) =
        ([], L.compoundTasks (L.binder (GroundProblem.ofLifted L).inertia.fixedValue)) := by
  have hL := LiftedProblem.wellFormed_of_ofDefinitions h
  have hfixed : ∀ f, L.fixedValue f = some false → L.factInertia.fixedValue f = some false :=
    fun f => factInertia_refines hL (instantiates_groundActions hL)
  exact ⟨nodup_eraseDups _, fun m' => mem_groundMethods_iff hL hfixed, _, le_rfl, compoundTasks_drained hL _⟩

/-- There and back again, as often as one likes. -/
def swingDomain : Definition.Domain where
  name := "swing"
  tasks := [⟨"there", []⟩, ⟨"back", []⟩]
  methods := [
    { name := "forward", task := ⟨"there", []⟩, network := .ordered [{ task := ⟨"back", []⟩ }] },
    { name := "return", task := ⟨"back", []⟩, network := .ordered [{ task := ⟨"there", []⟩ }] },
    { name := "stop", task := ⟨"back", []⟩ }]

def swingProblem : Definition.Problem where
  name := "once"
  domain := "swing"
  htn := { subtasks := [{ task := ⟨"there", []⟩ }] }

theorem groundMethods_exact_swing : ∃ L, LiftedProblem.ofDefinitions swingDomain swingProblem = .ok L ∧
    (L.groundMethods (GroundProblem.ofLifted L).inertia.fixedValue).length = 3 ∧
    ∀ m' ∈ L.groundMethods (GroundProblem.ofLifted L).inertia.fixedValue,
      ∃ m v b t, L.GroundsMethod (GroundProblem.ofLifted L).inertia.fixedValue m v b m' ∧
        m'.groundTask? = some t ∧ L.ComesUp (GroundProblem.ofLifted L).inertia.fixedValue t := by
  obtain ⟨L, hL, hlength⟩ : ∃ L, LiftedProblem.ofDefinitions swingDomain swingProblem = .ok L ∧
      (L.groundMethods (GroundProblem.ofLifted L).inertia.fixedValue).length = 3 :=
    exists_ok_of_any (by decide +kernel)
  exact ⟨L, hL, hlength, fun m' => ((groundMethods_exact hL).2.1 m').mp⟩

end LiftedProblem

end HtnPlanner
