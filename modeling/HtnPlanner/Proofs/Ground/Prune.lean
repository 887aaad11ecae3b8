import HtnPlanner.Proofs.Lifted.Run

/-!
A method is dropped only if it can never be used on the way to a network without tasks: those that are
kept are the most that support each other.
-/

namespace HtnPlanner

variable {primitive : List GroundTask} {methods kept : List Schema.Method} {m : Schema.Method} {t : GroundTask}

theorem isAchievable_iff : isAchievable primitive methods t = true ↔
    t ∈ primitive ∨ ∃ m ∈ methods, m.groundTask? = some t := by
  simp [isAchievable]

theorem isAchievable_mono (h : isAchievable primitive methods t = true) (hsub : methods ⊆ kept) :
    isAchievable primitive kept t = true := by
  rw [isAchievable_iff] at h ⊢
  exact h.imp_right fun ⟨m, hm, ht⟩ => ⟨m, hsub hm, ht⟩

theorem mem_supported : m ∈ supported primitive methods ↔
    m ∈ methods ∧ ∀ t ∈ m.subtasks, isAchievable primitive methods t = true := by
  rw [supported, List.mem_filter, List.all_eq_true]

theorem supported_mono (hsub : kept ⊆ methods) : supported primitive kept ⊆ supported primitive methods := by
  intro m hm
  obtain ⟨hm, ht⟩ := mem_supported.mp hm
  exact mem_supported.mpr ⟨hsub hm, fun t htm => isAchievable_mono (ht t htm) hsub⟩

/-- Methods that support each other are kept in every round. -/
theorem subset_pruneRounds (hsub : kept ⊆ methods) (hkept : kept ⊆ supported primitive kept) (rounds : Nat) :
    kept ⊆ pruneRounds primitive rounds methods := by
  induction rounds generalizing methods with
  | zero => exact hsub
  | succ rounds ih =>
      rw [pruneRounds]
      split
      · exact hsub
      · exact ih fun m hm => supported_mono hsub (hkept hm)

theorem pruneRounds_subset (rounds : Nat) : pruneRounds primitive rounds methods ⊆ methods := by
  induction rounds generalizing methods with
  | zero => exact List.Subset.refl _
  | succ rounds ih =>
      rw [pruneRounds]
      split
      · exact List.Subset.refl _
      · exact fun m hm => (mem_supported.mp (ih hm)).1

/-- With a round for each method the rounds end with methods that support each other. -/
theorem pruneRounds_stable {rounds : Nat} (h : methods.length ≤ rounds) :
    pruneRounds primitive rounds methods ⊆ supported primitive (pruneRounds primitive rounds methods) := by
  induction rounds generalizing methods with
  | zero =>
      obtain rfl : methods = [] := List.eq_nil_of_length_eq_zero (Nat.le_zero.mp h)
      exact List.nil_subset _
  | succ rounds ih =>
      rw [pruneRounds]
      split
      · next hlength =>
          have hself : supported primitive methods = methods :=
            List.filter_eq_self.mpr (List.length_filter_eq_length_iff.mp hlength)
          rw [hself]
          exact List.Subset.refl _
      · next hlength =>
          apply ih
          have hle : (supported primitive methods).length ≤ methods.length := List.length_filter_le _ _
          omega

theorem prune_subset : prune primitive methods ⊆ methods := pruneRounds_subset _

/-- A method is kept if what it needs can be achieved with those that are kept. -/
theorem mem_prune (hm : m ∈ methods)
    (ht : ∀ t ∈ m.subtasks, isAchievable primitive (prune primitive methods) t = true) :
    m ∈ prune primitive methods := by
  have hsub : prune primitive methods ⊆ m :: prune primitive methods := List.subset_cons_self _ _
  refine (subset_pruneRounds ?_ ?_ _ : m :: prune primitive methods ⊆ _) List.mem_cons_self
  · exact List.cons_subset.mpr ⟨hm, prune_subset⟩
  · refine List.cons_subset.mpr ⟨mem_supported.mpr ⟨List.mem_cons_self, ?_⟩, fun m' hm' => ?_⟩
    · exact fun t htm => isAchievable_mono (ht t htm) hsub
    · exact supported_mono hsub (pruneRounds_stable (Nat.le_refl _) hm')

/-! ### Complete runs -/

theorem mem_of_mem_or_eraseIdx {l : List GroundTask} {i : Nat} {u : GroundTask} (hu : l[i]? = some u)
    (ht : t ∈ l) : t = u ∨ t ∈ l.eraseIdx i := by
  obtain ⟨j, hj⟩ := List.mem_iff_getElem?.mp ht
  by_cases hji : j = i
  · subst hji
    exact Or.inl (Option.some.inj (hj.symm.trans hu))
  · exact Or.inr (List.mem_eraseIdx_iff_getElem?.mpr ⟨j, hji, hj⟩)

variable {actions : List Schema.Action} {w w' : World} {ls : List Label}

/-- What is left to do can be achieved if all of it gets done, and only with methods that are kept. -/
theorem achievable_of_run (hprimitive : ∀ a ∈ actions, a.groundTask ∈ primitive)
    (h : WorldRun (Ground.Step actions methods) w ls w') (hempty : w'.network.tasks = []) :
    (∀ t ∈ w.network.tasks, isAchievable primitive (prune primitive methods) t = true) ∧
      WorldRun (Ground.Step actions (prune primitive methods)) w ls w' := by
  induction h with
  | nil w => exact ⟨by simp [hempty], .nil w⟩
  | @cons u v w l ls first _ ih =>
      obtain ⟨hachievable, hrun⟩ := ih hempty
      cases first with
      | @action position a next task known applicable =>
          refine ⟨fun t ht => ?_, .cons (.action next task known applicable) hrun⟩
          rcases mem_of_mem_or_eraseIdx task ht with rfl | ht
          · exact isAchievable_iff.mpr (Or.inl (hprimitive a known))
          · exact hachievable t ht
      | @method position t m next task decomposes known applicable =>
          have hm : m ∈ prune primitive methods :=
            mem_prune known fun t ht => hachievable t (List.mem_append_right _ ht)
          refine ⟨fun t' ht => ?_, .cons (.method next task decomposes hm applicable) hrun⟩
          rcases mem_of_mem_or_eraseIdx task ht with rfl | ht
          · exact isAchievable_iff.mpr (Or.inr ⟨m, hm, decomposes⟩)
          · exact hachievable t' (List.mem_append_left _ ht)

theorem Ground.Step.mono {l : Label} (h : Ground.Step actions kept w l w') (hsub : kept ⊆ methods) :
    Ground.Step actions methods w l w' := by
  cases h with
  | action next task known applicable => exact .action next task known applicable
  | method next task decomposes known applicable => exact .method next task decomposes (hsub known) applicable

theorem WorldRun.mono {step step' : World → Label → World → Prop} (h : WorldRun step w ls w')
    (hstep : ∀ u l v, step u l v → step' u l v) : WorldRun step' w ls w' := by
  induction h with
  | nil w => exact .nil w
  | cons first _ ih => exact .cons (hstep _ _ _ first) ih

end HtnPlanner
