import HtnPlanner.Proofs.Ground.Instances
import HtnPlanner.Proofs.Order.Reach

/-!
The compound tasks that come up in decomposing the initial ones are all found, as there are finitely
many ground tasks and the search for them is bounded by their number.
-/

namespace HtnPlanner

/-! ### All ground tasks -/

def tuples (n : Nat) : Nat → List (List Nat)
  | 0 => [[]]
  | k + 1 => (List.range n).flatMap fun c => (tuples n k).map (c :: ·)

theorem length_tuples (n k : Nat) : (tuples n k).length = n.pow k := by
  induction k with
  | zero => rfl
  | succ k ih => simp [tuples, ih, Nat.pow_succ, Nat.mul_comm]

theorem mem_tuples {n k : Nat} {l : List Nat} : l ∈ tuples n k ↔ l.length = k ∧ ∀ c ∈ l, c < n := by
  induction k generalizing l with
  | zero =>
      rw [tuples, List.mem_singleton, List.length_eq_zero_iff]
      exact (and_iff_left_of_imp fun h => by simp [h]).symm
  | succ k ih =>
      simp only [tuples, List.mem_flatMap, List.mem_range, List.mem_map, ih]
      constructor
      · rintro ⟨c, hc, l, ⟨rfl, hl⟩, rfl⟩
        exact ⟨rfl, List.forall_mem_cons.mpr ⟨hc, hl⟩⟩
      · rintro ⟨hlength, hl⟩
        cases l with
        | nil => simp at hlength
        | cons c l =>
            obtain ⟨hc, hl⟩ := List.forall_mem_cons.mp hl
            exact ⟨c, hc, l, ⟨by simpa using hlength, hl⟩, rfl⟩

namespace Symbols

def groundTasks (s : Symbols) : List GroundTask :=
  s.tasks.entries.zipIdx.flatMap fun e =>
    (tuples s.constants.size e.1.2.parameters.length).map (⟨e.2, ·⟩)

theorem mem_groundTasks {s : Symbols} {t : GroundTask} : t ∈ s.groundTasks ↔ t.Fits s := by
  simp only [groundTasks, List.mem_flatMap, List.mem_map, mem_tuples, Prod.exists, List.mem_zipIdx_iff_getElem?]
  constructor
  · rintro ⟨name, signature, symbol, he, args, ⟨hlength, hargs⟩, rfl⟩
    exact ⟨⟨signature, Option.map_eq_some_iff.mpr ⟨_, he, rfl⟩, hlength.symm⟩, hargs⟩
  · rintro ⟨⟨signature, hsignature, hlength⟩, hargs⟩
    obtain ⟨⟨name, _⟩, he, rfl⟩ := Option.map_eq_some_iff.mp hsignature
    exact ⟨name, _, t.symbol, he, t.args, ⟨hlength.symm, hargs⟩, rfl⟩

theorem length_groundTasks (s : Symbols) : s.groundTasks.length = s.groundTaskCount := by
  have hmap : ∀ (entries : List (String × TaskSignature)) (k : Nat),
      ((entries.zipIdx k).map fun e => s.constants.size.pow e.1.2.parameters.length) =
        entries.map fun e => s.constants.size.pow e.2.parameters.length := by
    intro entries
    induction entries with
    | nil => exact fun k => rfl
    | cons e entries ih => exact fun k => by rw [List.zipIdx_cons, List.map_cons, List.map_cons, ih]
  rw [groundTasks, List.length_flatMap, groundTaskCount, ← hmap _ 0, ← List.sum_eq_foldr]
  simp [length_tuples]

theorem mem_compound {s : Symbols} {tasks : List GroundTask} {t : GroundTask} :
    t ∈ s.compound tasks ↔ t ∈ tasks ∧ s.isPrimitive t.symbol = false := by
  rw [compound, List.mem_filter, Bool.not_eq_true']

end Symbols

/-! ### Instances of networks -/

variable {s : Symbols} {b : List Nat}

theorem Schema.Network.Fits.exists_groundTasks {network : Schema.Network} (h : network.Fits s b.length)
    (hb : ∀ c ∈ b, c < s.constants.size) :
    ∃ tasks, (network.subst b).groundTasks? = some tasks ∧ tasks.length = network.tasks.length ∧
      ∀ t ∈ tasks, t.Fits s := by
  have hsome : ∀ t ∈ network.tasks.map (·.subst b), ∃ g : GroundTask, t.ground? = some g ∧ g.Fits s := by
    intro t ht
    obtain ⟨u, hu, rfl⟩ := List.mem_map.mp ht
    exact (h.tasks u hu).exists_ground hb
  obtain ⟨tasks, htasks⟩ := exists_mapM_eq_some fun t ht => (hsome t ht).imp fun g hg => hg.1
  refine ⟨tasks, htasks, by rw [length_of_mapM_eq_some htasks, List.length_map], fun g hg => ?_⟩
  obtain ⟨t, ht, htg⟩ := (mem_of_mapM_eq_some htasks).mp hg
  obtain ⟨g', hg', hfits⟩ := hsome t ht
  rwa [Option.some.inj (htg.symm.trans hg')]

namespace LiftedProblem

variable {p : LiftedProblem} {fixed : Fact → Option Bool} {m' : Schema.Method} {t : GroundTask}

theorem initialTasks_spec (hp : p.WellFormed) :
    p.initialTasks.length = p.network.tasks.length ∧ ∀ t ∈ p.initialTasks, t.Fits p.symbols := by
  have hground : ∀ r ∈ p.network.tasks, ∃ t : GroundTask, r.ground? = some t ∧ t.Fits p.symbols := by
    intro r hr
    obtain ⟨t, ht, hfits⟩ := TaskRef.Fits.exists_ground (b := []) (hp.network.tasks r hr) (by simp)
    rw [TaskRef.subst_nil] at ht
    exact ⟨t, ht, hfits⟩
  constructor
  · apply List.filterMap_length_eq_length.mpr
    intro r hr
    obtain ⟨t, ht, -⟩ := hground r hr
    rw [ht, Option.isSome_some]
  · intro t ht
    obtain ⟨r, hr, hrt⟩ := List.mem_filterMap.mp ht
    obtain ⟨u, hu, hfits⟩ := hground r hr
    obtain rfl : u = t := Option.some.inj (hu.symm.trans hrt)
    exact hfits

theorem GroundsMethod.subtasks {m : Schema.Method} {v : Expr} (h : p.GroundsMethod fixed m v b m')
    (hp : p.WellFormed) :
    m'.network.groundTasks? = some m'.subtasks ∧ m'.subtasks.length = m'.network.tasks.length ∧
      (∀ u ∈ m'.subtasks, u.Fits p.symbols) ∧
      ∀ q ∈ m'.network.order, q.1 < m'.network.tasks.length ∧ q.2 < m'.network.tasks.length := by
  obtain ⟨hm, -, hb, -, rfl⟩ := h
  have hlength : b.length = m.parameters.length := (accepts_iff.mp hb).1
  have hfits := (hp.methods m hm).network
  rw [← hlength] at hfits
  obtain ⟨tasks, htasks, htlength, htfits⟩ :=
    hfits.exists_groundTasks (hb.lt_size hp.settled (hp.methods m hm).types)
  have hsubtasks : (m.network.subst b).groundTasks = tasks := by rw [Schema.Network.groundTasks, htasks]; rfl
  simp only [Schema.Method.subtasks, Schema.Method.instantiate, hsubtasks]
  refine ⟨htasks, by simpa [Schema.Network.subst] using htlength, htfits, ?_⟩
  simpa [Schema.Network.subst] using hfits.order

theorem subtasks_of_mem_methodsOf (hp : p.WellFormed) (ht : t.Fits p.symbols)
    (h : m' ∈ (p.binder fixed).methodsOf p.symbols p.methods t) :
    m'.network.groundTasks? = some m'.subtasks ∧ m'.subtasks.length = m'.network.tasks.length ∧
      (∀ u ∈ m'.subtasks, u.Fits p.symbols) ∧
      ∀ q ∈ m'.network.order, q.1 < m'.network.tasks.length ∧ q.2 < m'.network.tasks.length := by
  obtain ⟨-, m, v, b, hm'⟩ := groundsMethod_of_mem_methodsOf hp ht h
  exact hm'.subtasks hp

/-! ### The search for tasks -/

def compoundSubtasks (p : LiftedProblem) (fixed : Fact → Option Bool) (t : GroundTask) : List GroundTask :=
  p.symbols.compound (((p.binder fixed).methodsOf p.symbols p.methods t).flatMap (·.subtasks))

theorem mem_compoundSubtasks {u : GroundTask} : u ∈ p.compoundSubtasks fixed t ↔
    (∃ m ∈ (p.binder fixed).methodsOf p.symbols p.methods t, u ∈ m.subtasks) ∧
      p.symbols.isPrimitive u.symbol = false := by
  rw [compoundSubtasks, Symbols.mem_compound, List.mem_flatMap]

/-- What the search goes through is on a list that is no longer than its bound. -/
theorem compoundTasks_within (hp : p.WellFormed) (fixed : Fact → Option Bool) :
    p.symbols.compound p.initialTasks ⊆ p.symbols.compound p.symbols.groundTasks ∧
      (∀ t ∈ p.symbols.compound p.symbols.groundTasks, ∀ u ∈ p.compoundSubtasks fixed t,
        u ∈ p.symbols.compound p.symbols.groundTasks) ∧
      (p.symbols.compound p.symbols.groundTasks).length ≤ p.symbols.groundTaskCount := by
  have hall : ∀ t, t ∈ p.symbols.compound p.symbols.groundTasks ↔
      t.Fits p.symbols ∧ p.symbols.isPrimitive t.symbol = false := by
    intro t
    rw [Symbols.mem_compound, Symbols.mem_groundTasks]
  refine ⟨fun t ht => ?_, fun t ht u hu => ?_, ?_⟩
  · obtain ⟨ht, hcompound⟩ := Symbols.mem_compound.mp ht
    exact (hall t).mpr ⟨(initialTasks_spec hp).2 t ht, hcompound⟩
  · obtain ⟨⟨m, hm, hum⟩, hcompound⟩ := mem_compoundSubtasks.mp hu
    exact (hall u).mpr ⟨(subtasks_of_mem_methodsOf hp ((hall t).mp ht).1 hm).2.2.1 u hum, hcompound⟩
  · rw [← Symbols.length_groundTasks]
    exact List.length_filter_le _ _

theorem compoundTasks_spec (hp : p.WellFormed) (fixed : Fact → Option Bool) :
    (∀ t ∈ p.compoundTasks (p.binder fixed), t.Fits p.symbols ∧ p.symbols.isPrimitive t.symbol = false) ∧
      (∀ t ∈ p.initialTasks, p.symbols.isPrimitive t.symbol = false → t ∈ p.compoundTasks (p.binder fixed)) ∧
      ∀ t ∈ p.compoundTasks (p.binder fixed), ∀ m ∈ (p.binder fixed).methodsOf p.symbols p.methods t,
        ∀ u ∈ m.subtasks, p.symbols.isPrimitive u.symbol = false → u ∈ p.compoundTasks (p.binder fixed) := by
  obtain ⟨hstart, hnext, hbound⟩ := compoundTasks_within hp fixed
  obtain ⟨hsub, hin, hclosed⟩ := reach_spec hstart hnext hbound
  refine ⟨fun t ht => ?_, fun t ht hcompound => hsub (Symbols.mem_compound.mpr ⟨ht, hcompound⟩), ?_⟩
  · obtain ⟨ht, hcompound⟩ := Symbols.mem_compound.mp (hin ht)
    exact ⟨Symbols.mem_groundTasks.mp ht, hcompound⟩
  · intro t ht m hm u hu hcompound
    exact hclosed t ht u (mem_compoundSubtasks.mpr ⟨⟨m, hm, hu⟩, hcompound⟩)

theorem mem_groundMethods : m' ∈ p.groundMethods fixed ↔
    ∃ t ∈ p.compoundTasks (p.binder fixed), m' ∈ (p.binder fixed).methodsOf p.symbols p.methods t := by
  simp only [groundMethods, List.mem_eraseDups, List.mem_flatMap]

theorem exists_groundsMethod (hp : p.WellFormed) (hm' : m' ∈ p.groundMethods fixed) :
    (∃ t, m'.groundTask? = some t ∧ p.symbols.isPrimitive t.symbol = false) ∧
      ∃ m v b, p.GroundsMethod fixed m v b m' := by
  obtain ⟨t, ht, hmt⟩ := mem_groundMethods.mp hm'
  obtain ⟨hfits, hcompound⟩ := (compoundTasks_spec hp fixed).1 t ht
  obtain ⟨htask, hground⟩ := groundsMethod_of_mem_methodsOf hp hfits hmt
  exact ⟨⟨t, htask, hcompound⟩, hground⟩

end LiftedProblem

end HtnPlanner
