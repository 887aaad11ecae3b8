import HtnPlanner.Proofs.Grounding
import HtnPlanner.Proofs.Lifted.Naming
import HtnPlanner.Proofs.Order.Acyclic
import Std.Data.String.ToNat

/-!
A network of subtasks in the order in which they are given. It is a chain unless a label that was given is the one
that another subtask gets for want of its own.
-/

namespace HtnPlanner

open Definition (Subtask Network)

/-! ### Labels -/

namespace Definition.Network

variable {l : List Subtask} {i : Nat}

/-- What the subtasks are labelled by in their order. -/
def labels (l : List Subtask) : List String := l.mapIdx fun i t => t.label.getD ("#" ++ toString i)

/-- A label that was given is the one that a subtask without a label gets. -/
def Mislabels (l : List Subtask) : Prop :=
  ∃ (i : Nat) (t : Subtask), l[i]? = some t ∧ t.label = none ∧ some ("#" ++ toString i) ∈ l.map (·.label)

@[simp] theorem length_labels : (labels l).length = l.length := by simp [labels]

theorem getElem_labels (h : i < (labels l).length) (hi : i < l.length) :
    (labels l)[i] = l[i].label.getD ("#" ++ toString i) := by
  simp [labels]

theorem label_ordered (l : List Subtask) : (ordered l).subtasks.map (·.label) = (labels l).map some :=
  List.ext_getElem (by simp [ordered]) fun i _ _ => by simp [ordered, labelled, labels]

theorem task_ordered : (ordered l).subtasks.map (·.task) = l.map (·.task) :=
  List.ext_getElem (by simp [ordered]) fun i _ _ => by simp [ordered, labelled]

@[simp] theorem length_ordered : (ordered l).subtasks.length = l.length := by simp [ordered]

theorem ordering_ordered : (ordered l).ordering = (labels l).zip (labels l).tail := by
  have hlabels : (ordered l).subtasks.filterMap (·.label) = labels l := by
    have hmap := congrArg (List.filterMap id) (label_ordered l)
    rwa [List.filterMap_map, List.filterMap_map, Function.id_comp, Function.id_comp, List.filterMap_some] at hmap
  rw [← hlabels]
  rfl

/-- Positions are written differently, so a subtask without a label has the label of another only if that was given. -/
theorem mislabels_of_none {j : Nat} (hi : i < l.length) (hj : j < l.length) (hij : i ≠ j) (hnone : l[i].label = none)
    (heq : l[i].label.getD ("#" ++ toString i) = l[j].label.getD ("#" ++ toString j)) : Mislabels l := by
  refine ⟨i, l[i], List.getElem?_eq_getElem hi, hnone, List.mem_map.mpr ⟨l[j], List.getElem_mem hj, ?_⟩⟩
  rw [hnone, Option.getD_none] at heq
  cases hlabel : l[j].label with
  | none =>
      rw [hlabel, Option.getD_none] at heq
      have hrepr : i.repr = j.repr := (String.append_right_inj _).mp heq
      exact absurd (Nat.repr_inj.mp hrepr) hij
  | some b =>
      rw [hlabel, Option.getD_some] at heq
      rw [heq]

theorem not_mislabels_of_nodup (h : (labels l).Nodup) : ¬Mislabels l := by
  rintro ⟨i, t, hget, ht, hlabel⟩
  obtain ⟨u, hu, hlabel⟩ := List.mem_map.mp hlabel
  obtain ⟨j, hj, rfl⟩ := List.mem_iff_getElem.mp hu
  obtain ⟨hi, rfl⟩ := List.getElem?_eq_some_iff.mp hget
  have hil : i < (labels l).length := by rwa [length_labels]
  have hjl : j < (labels l).length := by rwa [length_labels]
  have heq : (labels l)[i] = (labels l)[j] := by
    rw [getElem_labels hil hi, getElem_labels hjl hj, ht, hlabel]
    rfl
  obtain rfl := h.getElem_inj_iff.mp heq
  rw [ht] at hlabel
  cases hlabel

theorem nodup_labels_iff (h : (l.filterMap (·.label)).Nodup) : (labels l).Nodup ↔ ¬Mislabels l := by
  refine ⟨not_mislabels_of_nodup, fun hfree => ?_⟩
  rw [List.Nodup, List.pairwise_filterMap, List.pairwise_iff_getElem] at h
  rw [List.Nodup, List.pairwise_iff_getElem]
  intro i j hil hjl hij heq
  have hi : i < l.length := by rwa [length_labels] at hil
  have hj : j < l.length := by rwa [length_labels] at hjl
  rw [getElem_labels hil hi, getElem_labels hjl hj] at heq
  cases hfirst : l[i].label with
  | none => exact hfree (mislabels_of_none hi hj (Nat.ne_of_lt hij) hfirst heq)
  | some a =>
      cases hsecond : l[j].label with
      | none => exact hfree (mislabels_of_none hj hi (Nat.ne_of_gt hij) hsecond heq.symm)
      | some b =>
          rw [hfirst, hsecond, Option.getD_some, Option.getD_some] at heq
          exact h i j hi hj hij a hfirst b hsecond heq

end Definition.Network

/-! ### Ids -/

namespace Scope

open Definition.Network

variable {sc : Scope} {s : Symbols} {l : List Subtask} {label : String} {i j : Nat}

theorem mem_positions_label {subtasks : List Subtask} :
    i ∈ positions (·.label == some label) subtasks ↔ (subtasks.map (·.label))[i]? = some (some label) := by
  simp [mem_positions]

/-- A label stands for the last position that has it. -/
theorem position_eq_ok {subtasks : List Subtask} (h : sc.position subtasks label = .ok j) :
    (subtasks.map (·.label))[j]? = some (some label) ∧
      ∀ i, (subtasks.map (·.label))[i]? = some (some label) → i ≤ j := by
  rw [position] at h
  split at h
  · next p hp =>
      obtain rfl : p = j := by simpa using h
      refine ⟨mem_positions_label.mp (List.mem_of_getLast? hp), fun i hi => ?_⟩
      have hsorted := pairwise_positions (·.label == some label) subtasks
      have hmem := mem_positions_label.mpr hi
      obtain ⟨earlier, heq⟩ := List.getLast?_eq_some_iff.mp hp
      rw [heq] at hsorted hmem
      rcases List.mem_append.mp hmem with hi | hi
      · exact Nat.le_of_lt ((List.pairwise_append.mp hsorted).2.2 i hi p List.mem_cons_self)
      · exact Nat.le_of_eq (List.mem_singleton.mp hi)
  · cases h

theorem exists_position {subtasks : List Subtask} (h : some label ∈ subtasks.map (·.label)) :
    ∃ j, sc.position subtasks label = .ok j := by
  obtain ⟨i, hi⟩ := List.mem_iff_getElem?.mp h
  rw [position]
  cases hlast : (positions (·.label == some label) subtasks).getLast? with
  | none =>
      rw [List.getLast?_eq_none_iff] at hlast
      exact absurd (mem_positions_label.mpr hi) (by simp [hlast])
  | some p => exact ⟨p, rfl⟩

theorem position_ordered (h : sc.position (ordered l).subtasks label = .ok j) :
    (labels l)[j]? = some label ∧ ∀ i, (labels l)[i]? = some label → i ≤ j := by
  obtain ⟨hj, hlast⟩ := position_eq_ok h
  simp only [label_ordered, List.getElem?_map, Option.map_eq_some_iff, Option.some.injEq, exists_eq_right] at hj hlast
  exact ⟨hj, hlast⟩

theorem mapM_task_ordered (l : List Subtask) :
    (ordered l).subtasks.mapM (sc.task s ·.task) = (l.map (·.task)).mapM (sc.task s) := by
  rw [← task_ordered, List.mapM_map]
  rfl

theorem mem_ordering_ordered {p : String × String} (h : p ∈ (ordered l).ordering) :
    p.1 ∈ labels l ∧ p.2 ∈ labels l := by
  rw [ordering_ordered] at h
  obtain ⟨hfirst, hsecond⟩ := List.of_mem_zip h
  exact ⟨hfirst, List.mem_of_mem_tail hsecond⟩

theorem exists_position_ordered (sc : Scope) (h : label ∈ labels l) :
    ∃ j, sc.position (ordered l).subtasks label = .ok j := by
  apply exists_position
  rw [label_ordered]
  exact List.mem_map_of_mem h

/-- Nothing but a label that occurs twice in a row keeps the order from being accepted. -/
theorem exists_network_ordered_iff {refs : List TaskRef} (hrefs : (l.map (·.task)).mapM (sc.task s) = .ok refs) :
    (∃ N, sc.network s (ordered l) = .ok N) ↔ ∀ p ∈ (ordered l).ordering, p.1 ≠ p.2 := by
  constructor
  · rintro ⟨N, hN⟩ p hp
    obtain ⟨q, -, hq⟩ := Except.exists_of_mapM_eq_ok (network_eq_ok.mp hN).2 hp
    exact (precedence_eq_ok.mp hq).1
  · intro hne
    obtain ⟨order, horder⟩ : ∃ order, (ordered l).ordering.mapM (sc.precedence (ordered l).subtasks) = .ok order := by
      refine Except.exists_mapM_eq_ok fun p hp => ?_
      obtain ⟨i, hi⟩ := exists_position_ordered sc (mem_ordering_ordered hp).1
      obtain ⟨j, hj⟩ := exists_position_ordered sc (mem_ordering_ordered hp).2
      exact ⟨(i, j), precedence_eq_ok.mpr ⟨hne p hp, hi, hj⟩⟩
    exact ⟨⟨refs, order⟩, network_eq_ok.mpr ⟨by rwa [mapM_task_ordered], horder⟩⟩

theorem position_labels (hnodup : (labels l).Nodup) (hi : i < (labels l).length) :
    sc.position (ordered l).subtasks (labels l)[i] = .ok i := by
  obtain ⟨j, hj⟩ := exists_position_ordered sc (List.getElem_mem hi)
  obtain ⟨hsame, -⟩ := position_ordered hj
  obtain ⟨hjlt, heq⟩ := List.getElem?_eq_some_iff.mp hsame
  rwa [hnodup.getElem_inj_iff.mp heq] at hj

theorem mapM_precedence_ordered (hnodup : (labels l).Nodup) :
    (ordered l).ordering.mapM (sc.precedence (ordered l).subtasks) =
      .ok ((List.range (l.length - 1)).map fun i => (i, i + 1)) := by
  rw [Except.mapM_eq_ok_iff, List.forall₂_iff_get]
  refine ⟨by simp [ordering_ordered], fun i hi hlt => ?_⟩
  rw [List.length_map, List.length_range] at hlt
  have hfirst : i < (labels l).length := by rw [length_labels]; omega
  have hsecond : i + 1 < (labels l).length := by rw [length_labels]; omega
  have hpair : (ordered l).ordering.get ⟨i, hi⟩ = ((labels l)[i], (labels l)[i + 1]) := by
    simp [ordering_ordered]
  rw [hpair, List.get_eq_getElem, List.getElem_map, List.getElem_range, precedence_eq_ok]
  refine ⟨fun heq => ?_, position_labels hnodup hfirst, position_labels hnodup hsecond⟩
  exact absurd (hnodup.getElem_inj_iff.mp heq) (by omega)

/-- No label stands for the first of two positions that have the same label. -/
theorem isTotal_network_ordered {N : Schema.Network} (h : ¬(labels l).Nodup) (hN : sc.network s (ordered l) = .ok N) :
    N.isTotal = false := by
  obtain ⟨htasks, horder⟩ := network_eq_ok.mp hN
  have hlength : N.tasks.length = l.length := by
    rw [(Except.mapM_eq_ok htasks).1, length_ordered]
  rw [List.Nodup, List.pairwise_iff_getElem] at h
  push Not at h
  obtain ⟨i, j, hi, hj, hij, heq⟩ := h
  have hunused : ∀ label k, sc.position (ordered l).subtasks label = .ok k → k ≠ i := by
    rintro label k hk rfl
    obtain ⟨hsame, hlast⟩ := position_ordered hk
    have hlater : (labels l)[j]? = some label := by
      rw [← hsame, List.getElem?_eq_getElem hi, List.getElem?_eq_getElem hj, heq]
    exact absurd (hlast j hlater) (by omega)
  have hmem : ∀ q ∈ N.order, ∃ p ∈ (ordered l).ordering, sc.precedence (ordered l).subtasks p = .ok q :=
    (Except.mapM_eq_ok horder).2
  refine FinRel.isTotal_ofPairs_eq_false (i := i) (j := j) (fun q hq => ?_) ?_ ?_ (by omega) fun q hq => ?_
  · obtain ⟨p, -, hp⟩ := hmem q hq
    rw [hlength, ← length_ordered]
    exact (precedence_lt hp).1
  · rwa [hlength, ← length_labels]
  · rwa [hlength, ← length_labels]
  · obtain ⟨p, -, hp⟩ := hmem q hq
    obtain ⟨-, hfirst, hsecond⟩ := precedence_eq_ok.mp hp
    exact ⟨hunused _ _ hfirst, hunused _ _ hsecond⟩

end Scope

/-- Each task comes before all that follow it, and nothing else does. -/
structure Schema.Network.IsChain (N : Schema.Network) (tasks : List TaskRef) : Prop where
  tasks_eq : N.tasks = tasks
  holds_iff : ∀ i j, N.closedOrder.holds i j = true ↔ i < j ∧ j < tasks.length
  total : N.isTotal = true

theorem Scope.network_ordered {sc : Scope} {s : Symbols} {l : List Subtask} {refs : List TaskRef}
    (hnodup : (Definition.Network.labels l).Nodup) (hrefs : (l.map (·.task)).mapM (sc.task s) = .ok refs) :
    ∃ N, sc.network s (.ordered l) = .ok N ∧ N.IsChain refs := by
  have hlength : refs.length = l.length := by rw [(Except.mapM_eq_ok hrefs).1, List.length_map]
  let N : Schema.Network := ⟨refs, (List.range (l.length - 1)).map fun i => (i, i + 1)⟩
  have hclosed : N.closedOrder = .chain refs.length := by rw [hlength]; exact congrArg (FinRel.ofPairs · _) hlength
  refine ⟨N, network_eq_ok.mpr ⟨?_, mapM_precedence_ordered hnodup⟩, rfl, fun i j => ?_, ?_⟩
  · rwa [mapM_task_ordered]
  · rw [hclosed, FinRel.holds_chain]
  · rw [Schema.Network.isTotal, hclosed, FinRel.isTotal_chain]

theorem Scope.isChain_iff {sc : Scope} {s : Symbols} {l : List Subtask} {N : Schema.Network}
    (h : sc.network s (.ordered l) = .ok N) : N.IsChain N.tasks ↔ (Definition.Network.labels l).Nodup := by
  constructor
  · intro hchain
    by_contra hnodup
    exact Bool.false_ne_true ((isTotal_network_ordered hnodup h).symm.trans hchain.total)
  · intro hnodup
    obtain ⟨N', hN', hchain⟩ := network_ordered hnodup (mapM_task_ordered l ▸ (network_eq_ok.mp h).1)
    obtain rfl : N' = N := Except.ok.inj (hN'.symm.trans h)
    exact hchain

/-! ### Problems -/

section

variable {d : Definition.Domain} {p : Definition.Problem} {L : LiftedProblem} {n : Network} {N : Schema.Network}

theorem Naming.problem_withNetwork {s s' : Symbols} (h : Naming.problem d p s = .ok (L, s'))
    (hN : ({ name := p.name } : Scope).network L.symbols n = .ok N) :
    Naming.problem d { p with htn := n } s = .ok ({ L with network := N }, s') := by
  obtain ⟨hs, s₁, s₂, hparts⟩ := problem_eq_ok.mp h
  exact problem_eq_ok.mpr ⟨hs, s₁, s₂, hparts.declared, hparts.actions, hparts.methods, hparts.init, hparts.goal, hN,
    hparts.domainName, hparts.problemName⟩

theorem LiftedProblem.ofDefinitions_withNetwork (h : LiftedProblem.ofDefinitions d p = .ok L)
    (hN : ({ name := p.name } : Scope).network L.symbols n = .ok N) :
    LiftedProblem.ofDefinitions d (some { p with htn := n }) = .ok { L with network := N } := by
  obtain ⟨⟨_, s⟩, hrun, rfl⟩ := Except.map_eq_ok.mp h
  exact Except.map_eq_ok.mpr ⟨_, Naming.problem_withNetwork hrun hN, rfl⟩

/-- The networks of methods and of the problem are all translated in the same way. -/
theorem LiftedProblem.networks_of_ofDefinitions (h : LiftedProblem.ofDefinitions d p = .ok L) :
    List.Forall₂ (fun (m : Definition.Method) (M : Schema.Method) =>
        ∃ (sc : Scope) (s : Symbols), sc.network s m.network = .ok M.network) d.methods L.methods ∧
      ({ name := p.name } : Scope).network L.symbols p.htn = .ok L.network := by
  obtain ⟨⟨_, s⟩, hrun, rfl⟩ := Except.map_eq_ok.mp h
  obtain ⟨-, s₁, s₂, hparts⟩ := Naming.problem_eq_ok.mp hrun
  refine ⟨(Naming.forall₂_of_mapM (R := fun _ (m : Definition.Method) (M : Schema.Method) =>
    ∃ (sc : Scope) (s : Symbols), sc.network s m.network = .ok M.network) ?_ ?_ hparts.methods).2, hparts.network⟩
  · intro m s M s' hm
    obtain ⟨sc, hm⟩ := Naming.parts_of_method hm
    exact ⟨(Naming.scope_names hm.scope).1, sc, s', hm.network⟩
  · exact fun _ _ _ _ _ hm => hm

end

open Definition.Network in
/-- Subtasks with different labels, put in order, keep their tasks and their labels. If none of the labels is one that
a subtask without a label gets, then all labels are different and the network is accepted as a chain, whatever scope it
is translated in. Otherwise two labels are the same, and the network is refused or else not totally ordered. -/
theorem ordered_is_chain {l : List Subtask} (hlabels : (l.filterMap (·.label)).Nodup) :
    (∀ (i : Nat) (t : Subtask), l[i]? = some t → ∃ label, (ordered l).subtasks[i]? = some ⟨some label, t.task⟩ ∧
        ∀ given, t.label = some given → label = given) ∧
      (ordered l).subtasks.length = l.length ∧
      (((ordered l).subtasks.map (·.label)).Nodup ↔ ¬Mislabels l) ∧
      (∀ sc s refs, (l.map (·.task)).mapM (Scope.task sc s) = .ok refs →
        ((∃ N, sc.network s (ordered l) = .ok N) ↔ ∀ p ∈ (ordered l).ordering, p.1 ≠ p.2) ∧
        (¬Mislabels l → ∃ N, sc.network s (ordered l) = .ok N ∧ N.IsChain refs) ∧
        (Mislabels l → ∀ N, sc.network s (ordered l) = .ok N → N.isTotal = false)) ∧
      (∀ (d : Definition.Domain) (p : Definition.Problem) (L : LiftedProblem),
        LiftedProblem.ofDefinitions d p = .ok L →
        List.Forall₂ (fun (m : Definition.Method) (M : Schema.Method) =>
          m.network = ordered l → (M.network.IsChain M.network.tasks ↔ ¬Mislabels l)) d.methods L.methods ∧
        (p.htn = ordered l → (L.network.IsChain L.network.tasks ↔ ¬Mislabels l))) ∧
      ∀ (d : Definition.Domain) (p : Definition.Problem) (L : LiftedProblem) refs,
        LiftedProblem.ofDefinitions d (some { p with htn := {} }) = .ok L →
        (l.map (·.task)).mapM (Scope.task { name := p.name } L.symbols) = .ok refs → ¬Mislabels l →
        ∃ N, LiftedProblem.ofDefinitions d (some { p with htn := ordered l }) = .ok { L with network := N } ∧
          N.IsChain refs := by
  have hiff := nodup_labels_iff hlabels
  refine ⟨fun i t ht => ⟨t.label.getD ("#" ++ toString i), ?_, ?_⟩, length_ordered, ?_, ?_, ?_, ?_⟩
  · simp [ordered, labelled, ht]
  · rintro given hgiven
    rw [hgiven, Option.getD_some]
  · rw [label_ordered, List.nodup_map_iff (Option.some_injective _), hiff]
  · intro sc s refs hrefs
    refine ⟨Scope.exists_network_ordered_iff hrefs, fun hfree => Scope.network_ordered (hiff.mpr hfree) hrefs, ?_⟩
    exact fun htaken N hN => Scope.isTotal_network_ordered (fun hnodup => hiff.mp hnodup htaken) hN
  · intro d p L hL
    obtain ⟨hmethods, hnetwork⟩ := LiftedProblem.networks_of_ofDefinitions hL
    refine ⟨hmethods.imp fun m M hm hl => ?_, fun hl => ?_⟩
    · obtain ⟨sc, s, hN⟩ := hm
      exact (Scope.isChain_iff (hl ▸ hN)).trans hiff
    · exact (Scope.isChain_iff (hl ▸ hnetwork)).trans hiff
  · intro d p L refs hL hrefs hfree
    obtain ⟨N, hN, hchain⟩ := Scope.network_ordered (hiff.mpr hfree) hrefs
    exact ⟨N, LiftedProblem.ofDefinitions_withNetwork (p := { p with htn := {} }) hL hN, hchain⟩

/-- A label that looks like one that subtasks get, and one of its own. -/
def mixedLabels : List Subtask :=
  [⟨some "#0", ⟨"light", [.name "floor"]⟩⟩, ⟨none, ⟨"plug", []⟩⟩, ⟨some "last", ⟨"light", [.name "desk"]⟩⟩]

theorem ordered_is_chain_mixed : (mixedLabels.filterMap (·.label)).Nodup ∧
    ∃ (L : LiftedProblem) (N : Schema.Network) (refs : List TaskRef), refs.length = 3 ∧
      LiftedProblem.ofDefinitions lampDomain (some { lampProblem with htn := .ordered mixedLabels }) =
        .ok { L with network := N } ∧
      N.IsChain refs := by
  have hlabels : (mixedLabels.filterMap (·.label)).Nodup := by decide
  have hfree : ¬Definition.Network.Mislabels mixedLabels :=
    (Definition.Network.nodup_labels_iff hlabels).mp (by decide +kernel)
  obtain ⟨L, hL, hok⟩ : ∃ L, LiftedProblem.ofDefinitions lampDomain (some { lampProblem with htn := {} }) = .ok L ∧
      ((mixedLabels.map (·.task)).mapM (Scope.task { name := "two lamps" } L.symbols)).toOption.isSome = true :=
    exists_ok_of_any (by decide +kernel)
  cases hrefs : (mixedLabels.map (·.task)).mapM (Scope.task { name := "two lamps" } L.symbols) with
  | error e =>
      rw [hrefs] at hok
      cases hok
  | ok refs =>
      obtain ⟨-, -, -, -, -, hproblem⟩ := ordered_is_chain hlabels
      obtain ⟨N, hN, hchain⟩ := hproblem lampDomain lampProblem L refs hL hrefs hfree
      exact ⟨hlabels, L, N, refs, (Except.mapM_eq_ok hrefs).1, hN, hchain⟩

def pairDomain : Definition.Domain where
  name := "pair"
  actions := [{ name := "a" }, { name := "b" }]

def pairProblem : Definition.Problem where
  name := "pair"
  domain := "pair"

/-- The label of the first subtask is the one that the second gets. -/
def clashingLabels : List Subtask := [⟨some "#1", ⟨"a", []⟩⟩, ⟨none, ⟨"b", []⟩⟩]

/-- The only label that is given is different from all others that are given, and the tasks are known, yet both subtasks
have the same label and their order is refused. -/
theorem ordered_clash : (clashingLabels.filterMap (·.label)).Nodup ∧
    (Definition.Network.ordered clashingLabels).subtasks.map (·.label) = [some "#1", some "#1"] ∧
    (∃ L, LiftedProblem.ofDefinitions pairDomain
        (some { pairProblem with htn := { subtasks := clashingLabels } }) = .ok L ∧
      L.network.tasks.length = 2) ∧
    LiftedProblem.ofDefinitions pairDomain (some { pairProblem with htn := .ordered clashingLabels }) =
      .error (.invalidOrdering "pair" "#1") :=
  ⟨by decide, by decide +kernel, exists_ok_of_any (by decide +kernel), eq_error_of_all (by decide +kernel)⟩

end HtnPlanner
