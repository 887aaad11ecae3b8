import HtnPlanner.Proofs.Ground.Prune
import Mathlib.Order.Bounds.Basic
import Mathlib.Logic.Function.Iterate

/-!
Of all sets of methods that support each other, those that are kept are the greatest. They are found in as many rounds
as drop a method, in whatever order the methods come.
-/

namespace HtnPlanner

variable {primitive primitive' : List GroundTask} {methods methods' : List Schema.Method} {m : Schema.Method}

/-- What the methods of `M` need is primitive or the task of a method of `M`. -/
def SelfSupporting (primitive : List GroundTask) (M : Set Schema.Method) : Prop :=
  ∀ m ∈ M, ∀ t ∈ m.subtasks, t ∈ primitive ∨ ∃ m' ∈ M, m'.groundTask? = some t

theorem selfSupporting_iff_subset_supported :
    SelfSupporting primitive {m | m ∈ methods} ↔ methods ⊆ supported primitive methods := by
  constructor
  · exact fun h m hm => mem_supported.mpr ⟨hm, fun t ht => isAchievable_iff.mpr (h m hm t ht)⟩
  · exact fun h m hm t ht => isAchievable_iff.mp ((mem_supported.mp (h hm)).2 t ht)

/-- A set that supports itself lies in the methods that are kept, as a list of its members does. -/
theorem subset_prune {M : Set Schema.Method} (hsub : M ⊆ {m | m ∈ methods}) (hM : SelfSupporting primitive M) :
    M ⊆ {m | m ∈ prune primitive methods} := by
  classical
  have hlist : {m | m ∈ methods.filter (· ∈ M)} = M := by
    ext m
    simpa using @hsub m
  rw [← hlist, selfSupporting_iff_subset_supported] at hM
  rw [← hlist]
  exact subset_pruneRounds List.filter_sublist.subset hM _

theorem isGreatest_prune (primitive : List GroundTask) (methods : List Schema.Method) :
    IsGreatest {M | M ⊆ {m | m ∈ methods} ∧ SelfSupporting primitive M} {m | m ∈ prune primitive methods} :=
  ⟨⟨fun _ hm => prune_subset hm, selfSupporting_iff_subset_supported.mpr (pruneRounds_stable le_rfl)⟩,
    fun _ hM => subset_prune hM.1 hM.2⟩

/-! ### The list of what is kept -/

theorem exists_pruneRounds_eq_filter (primitive : List GroundTask) (rounds : Nat) (methods : List Schema.Method) :
    ∃ p, pruneRounds primitive rounds methods = methods.filter p := by
  induction rounds generalizing methods with
  | zero => exact ⟨fun _ => true, (List.filter_eq_self.mpr fun _ _ => rfl).symm⟩
  | succ rounds ih =>
      rw [pruneRounds]
      split
      · exact ⟨fun _ => true, (List.filter_eq_self.mpr fun _ _ => rfl).symm⟩
      · obtain ⟨p, hp⟩ := ih (supported primitive methods)
        exact ⟨_, hp.trans (List.filter_filter ..)⟩

/-- A method that is kept is kept wherever it stands, and the order stays. -/
theorem prune_eq_filter (primitive : List GroundTask) (methods : List Schema.Method) :
    prune primitive methods = methods.filter (· ∈ prune primitive methods) := by
  obtain ⟨p, hp⟩ := exists_pruneRounds_eq_filter primitive methods.length methods
  rw [prune, hp]
  refine List.filter_congr fun m hm => ?_
  simp [hm]

/-- Only which methods and which primitive tasks there are decides what is kept. -/
theorem mem_prune_congr (hprimitive : ∀ t, t ∈ primitive' ↔ t ∈ primitive)
    (hmethods : ∀ m, m ∈ methods' ↔ m ∈ methods) :
    m ∈ prune primitive' methods' ↔ m ∈ prune primitive methods := by
  have hgreatest := isGreatest_prune primitive' methods'
  simp only [SelfSupporting, hprimitive, hmethods] at hgreatest
  exact Set.ext_iff.mp (hgreatest.unique (isGreatest_prune primitive methods)) m

/-! ### The rounds -/

theorem supported_prune (primitive : List GroundTask) (methods : List Schema.Method) :
    supported primitive (prune primitive methods) = prune primitive methods :=
  List.filter_eq_self.mpr fun _ hm => (List.mem_filter.mp (pruneRounds_stable le_rfl hm)).2

/-- Rounds go on as long as the last one has dropped a method. -/
theorem exists_pruneRounds_eq_iterate (primitive : List GroundTask) (rounds : Nat) (methods : List Schema.Method) :
    ∃ n ≤ rounds, (supported primitive)^[n] methods = pruneRounds primitive rounds methods ∧
      ∀ k < n, ((supported primitive)^[k + 1] methods).length < ((supported primitive)^[k] methods).length := by
  induction rounds generalizing methods with
  | zero => exact ⟨0, le_rfl, rfl, by simp⟩
  | succ rounds ih =>
      rw [pruneRounds]
      split
      · exact ⟨0, Nat.zero_le _, rfl, by simp⟩
      · next hlength =>
          obtain ⟨n, hn, heq, hdrops⟩ := ih (supported primitive methods)
          refine ⟨n + 1, Nat.succ_le_succ hn, heq, fun k hk => ?_⟩
          cases k with
          | zero => exact lt_of_le_of_ne (List.length_filter_le _ _) hlength
          | succ k => exact hdrops k (Nat.lt_of_succ_lt_succ hk)

/-- What is kept is, in the order given, the greatest set of the methods in which every subtask is primitive or the
task of one of them. It is reached after at most one round for each method. The same methods in another order, and the
same primitive tasks however they are listed, leave the same methods, in that order. -/
theorem prune_keeps_greatest (primitive : List GroundTask) (methods : List Schema.Method) :
    IsGreatest {M | M ⊆ {m | m ∈ methods} ∧ SelfSupporting primitive M} {m | m ∈ prune primitive methods} ∧
      prune primitive methods = methods.filter (· ∈ prune primitive methods) ∧
      (∃ rounds ≤ methods.length, (supported primitive)^[rounds] methods = prune primitive methods ∧
        supported primitive (prune primitive methods) = prune primitive methods ∧
        ∀ k < rounds,
          ((supported primitive)^[k + 1] methods).length < ((supported primitive)^[k] methods).length) ∧
      ∀ primitive' methods', (∀ t, t ∈ primitive' ↔ t ∈ primitive) → methods'.Perm methods →
        prune primitive' methods' = methods'.filter (· ∈ prune primitive methods) ∧
          (prune primitive' methods').Perm (prune primitive methods) := by
  obtain ⟨rounds, hrounds, heq, hdrops⟩ := exists_pruneRounds_eq_iterate primitive methods.length methods
  refine ⟨isGreatest_prune primitive methods, prune_eq_filter primitive methods,
    ⟨rounds, hrounds, heq, supported_prune primitive methods, hdrops⟩,
    fun primitive' methods' hprimitive hperm => ?_⟩
  have hfilter : prune primitive' methods' = methods'.filter (· ∈ prune primitive methods) := by
    rw [prune_eq_filter]
    exact List.filter_congr fun m _ => decide_eq_decide.mpr (mem_prune_congr hprimitive fun m => hperm.mem_iff)
  have hkept := hperm.filter (· ∈ prune primitive methods)
  rw [← hfilter, ← prune_eq_filter] at hkept
  exact ⟨hfilter, hkept⟩

/-- Two methods that need each other stay. The one after them waits for a task that nothing accomplishes, and the first
one waits for it. The other way round, and with the primitive task listed twice, the same two stay. -/
theorem prune_keeps_greatest_mutual :
    let method (task : Nat) (subtasks : List Nat) : Schema.Method :=
      ⟨"", [], [], ⟨task, []⟩, .top, ⟨subtasks.map (⟨·, []⟩), []⟩⟩
    let methods := [method 4 [0, 3], method 1 [2], method 2 [1, 0], method 3 [5]]
    prune [⟨0, []⟩] methods = [method 1 [2], method 2 [1, 0]] ∧
      (∀ t, t ∈ [(⟨0, []⟩ : GroundTask), ⟨0, []⟩] ↔ t ∈ [(⟨0, []⟩ : GroundTask)]) ∧ methods.reverse.Perm methods ∧
      prune [⟨0, []⟩, ⟨0, []⟩] methods.reverse = [method 2 [1, 0], method 1 [2]] := by
  intro method methods
  have hkept : prune [⟨0, []⟩] methods = [method 1 [2], method 2 [1, 0]] := by decide
  have hprimitive : ∀ t, t ∈ [(⟨0, []⟩ : GroundTask), ⟨0, []⟩] ↔ t ∈ [(⟨0, []⟩ : GroundTask)] := by simp
  have hperm : methods.reverse.Perm methods := List.reverse_perm methods
  obtain ⟨-, -, -, hpermuted⟩ := prune_keeps_greatest [⟨0, []⟩] methods
  refine ⟨hkept, hprimitive, hperm, (hpermuted _ _ hprimitive hperm).1.trans ?_⟩
  rw [hkept]
  decide

end HtnPlanner
