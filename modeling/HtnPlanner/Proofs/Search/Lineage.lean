import HtnPlanner.Proofs.Order.Closure
import HtnPlanner.Proofs.Search.Run

/-!
Every entry of a network comes from a place in the initial network, through the places that the
methods on the way gave it. The order between two entries is the one between the places where they
part.
-/

namespace HtnPlanner

/-- A place in the initial network, or among the subtasks of a method. -/
structure Place where
  method : Option Nat
  index : Nat
  deriving DecidableEq, Repr, Inhabited

/-- The places of an entry's ancestors, the oldest first, and its own. -/
abbrev Lineage := List Place

namespace Lineage

/-- The first places at which two lineages differ. -/
def parting : Lineage → Lineage → Option (Place × Place)
  | a :: x, b :: y => if a = b then parting x y else some (a, b)
  | _, _ => none

theorem parting_eq_some_iff {x y : Lineage} {a b : Place} :
    parting x y = some (a, b) ↔ a ≠ b ∧ ∃ l s t, x = l ++ a :: s ∧ y = l ++ b :: t := by
  constructor
  · intro h
    induction x generalizing y with
    | nil => simp [parting] at h
    | cons c x ih =>
        cases y with
        | nil => simp [parting] at h
        | cons d y =>
            by_cases hcd : c = d
            · rw [parting, if_pos hcd] at h
              obtain ⟨hab, l, s, t, rfl, rfl⟩ := ih h
              exact ⟨hab, c :: l, s, t, rfl, by rw [hcd]; rfl⟩
            · rw [parting, if_neg hcd] at h
              obtain ⟨rfl, rfl⟩ := Prod.mk.inj (Option.some.inj h)
              exact ⟨hcd, [], x, y, rfl, rfl⟩
  · rintro ⟨hab, l, s, t, rfl, rfl⟩
    induction l with
    | nil => simp [parting, hab]
    | cons c l ih => simpa [parting] using ih

theorem parting_append {x y : Lineage} {ab : Place × Place} (h : parting x y = some ab) (s t : Lineage) :
    parting (x ++ s) (y ++ t) = some ab := by
  obtain ⟨a, b⟩ := ab
  obtain ⟨hab, l, u, v, rfl, rfl⟩ := parting_eq_some_iff.mp h
  exact parting_eq_some_iff.mpr ⟨hab, l, u ++ s, v ++ t, by simp, by simp⟩

end Lineage

namespace EncodedProblem

variable (p : EncodedProblem)

def networkOf : Option Nat → TaskNetwork
  | none => p.initialNetwork
  | some m => p.methods[m]?.elim {} fun method => ⟨method.subtasks, method.order⟩

def places (m : Option Nat) : List Place := (List.range (p.networkOf m).tasks.length).map (⟨m, ·⟩)

def precedes (a b : Place) : Bool := a.method == b.method && (p.networkOf a.method).order.holds a.index b.index

def initialLineages : List Lineage := (p.places none).map fun a => [a]

def descend (lineages : List Lineage) (position : Nat) : Operator → List Lineage
  | .action _ => lineages.eraseIdx position
  | .method m => lineages.eraseIdx position
      ++ (p.places (some m)).map fun a => lineages.getD position [] ++ [a]

/-- A run, with the lineages of the entries of its networks. -/
inductive TracedRun : Situation → List Lineage → List Operator → Situation → List Lineage → Prop
  | nil (s : Situation) (lineages : List Lineage) : TracedRun s lineages [] s lineages
  | cons {s t u : Situation} {x y : List Lineage} {position : Nat} {o : Operator} {os : List Operator}
      (next : position ∈ s.network.first) (first : ⟨o, t⟩ ∈ p.successorsAt s position)
      (rest : TracedRun t (p.descend x position o) os u y) : TracedRun s x (o :: os) u y

variable {p} {s t : Situation} {o : Operator} {os : List Operator} {x y : List Lineage}

theorem run_iff_tracedRun (x : List Lineage) : p.Run s os t ↔ ∃ y, p.TracedRun s x os t y := by
  constructor
  · intro h
    induction h generalizing x with
    | nil s => exact ⟨x, .nil s x⟩
    | cons first _ ih =>
        obtain ⟨position, hnext, hfirst⟩ := mem_successors_iff.mp first
        obtain ⟨y, hy⟩ := ih (p.descend x position _)
        exact ⟨y, .cons hnext hfirst hy⟩
  · rintro ⟨y, h⟩
    induction h with
    | nil s => exact .nil s
    | cons next first _ ih => exact .cons (mem_successors_iff.mpr ⟨_, next, first⟩) ih

theorem network_of_mem_successorsAt {position : Nat} (h : ⟨o, t⟩ ∈ p.successorsAt s position) :
    (∃ i, o = .action i ∧ t.network = s.network.remove position) ∨
      ∃ m, o = .method m ∧ t.network = s.network.decompose position (p.networkOf (some m)).tasks
        (p.networkOf (some m)).order := by
  obtain ⟨-, -, -, happ, rfl⟩ := mem_successorsAt_iff.mp h
  rcases apply_cases happ position with ⟨i, a, rfl, -, heq⟩ | ⟨i, m, rfl, hm, heq⟩
  · exact Or.inl ⟨i, rfl, by rw [heq]⟩
  · exact Or.inr ⟨i, rfl, by rw [heq, networkOf, hm]; rfl⟩

/-- The order of a network is the one that the lineages of its entries give. -/
structure Inherits (p : EncodedProblem) (n : TaskNetwork) (x : List Lineage) : Prop extends n.Ordered where
  length : x.length = n.tasks.length
  apart : ∀ {i j : Nat} {l k : Lineage}, x[i]? = some l → x[j]? = some k → i ≠ j →
    ∃ a b, Lineage.parting l k = some (a, b) ∧ a.method = b.method ∧ n.order.holds i j = p.precedes a b
  own : ∀ {i : Nat} {l : Lineage}, x[i]? = some l →
    ∃ k a, l = k ++ [a] ∧ n.order.holds i i = p.precedes a a ∧ ∀ b ∈ k, p.precedes b b = false

theorem Inherits.lt_length {n : TaskNetwork} (h : Inherits p n x) {i : Nat} {l : Lineage} (hi : x[i]? = some l) :
    i < n.tasks.length := by
  rw [← h.length]
  exact (List.getElem?_eq_some_iff.mp hi).1

theorem Inherits.remove {n : TaskNetwork} (h : Inherits p n x) {t : Nat} (ht : t < n.tasks.length) :
    Inherits p (n.remove t) (x.eraseIdx t) := by
  have hsize : n.order.size = n.tasks.length := h.size
  have hlength : (x.eraseIdx t).length = n.tasks.length - 1 := by
    rw [List.length_eraseIdx_of_lt (by rwa [h.length]), h.length]
  have hlt : ∀ {i l}, (x.eraseIdx t)[i]? = some l → i < n.order.size - 1 := by
    intro i l hi
    rw [hsize, ← hlength]
    exact (List.getElem?_eq_some_iff.mp hi).1
  refine ⟨h.toOrdered.remove ht, ?_, ?_, ?_⟩
  · simp [TaskNetwork.remove, hlength, List.length_eraseIdx_of_lt ht]
  · intro i j l k hi hj hij
    have hholds : (n.remove t).order.holds i j = n.order.holds (FinRel.skip t i) (FinRel.skip t j) :=
      FinRel.holds_erase _ _ (hlt hi) (hlt hj)
    rw [FinRel.getElem?_eraseIdx_eq] at hi hj
    obtain ⟨a, b, hab, hmethod, hp⟩ := h.apart hi hj fun h => hij (FinRel.skip_injective h)
    exact ⟨a, b, hab, hmethod, hholds.trans hp⟩
  · intro i l hi
    have hholds : (n.remove t).order.holds i i = n.order.holds (FinRel.skip t i) (FinRel.skip t i) :=
      FinRel.holds_erase _ _ (hlt hi) (hlt hi)
    rw [FinRel.getElem?_eraseIdx_eq] at hi
    obtain ⟨k, a, hk, hp, hold⟩ := h.own hi
    exact ⟨k, a, hk, hholds.trans hp, hold⟩

theorem getElem?_descend_method {t m i : Nat} {l : Lineage} (ht : t < x.length) :
    (p.descend x t (.method m))[i]? = some l ↔
      i < x.length - 1 ∧ x[FinRel.skip t i]? = some l ∨
      x.length - 1 ≤ i ∧ i - (x.length - 1) < (p.networkOf (some m)).tasks.length ∧
        l = x[t] ++ [⟨some m, i - (x.length - 1)⟩] := by
  have hlength : (x.eraseIdx t).length = x.length - 1 := List.length_eraseIdx_of_lt ht
  have hgetD : x.getD t [] = x[t] := by simp [List.getD_eq_getElem?_getD, List.getElem?_eq_getElem ht]
  by_cases hi : i < x.length - 1
  · rw [descend, List.getElem?_append_left (by rwa [hlength]), FinRel.getElem?_eraseIdx_eq]
    simp only [hi, true_and, Nat.not_le.mpr hi, false_and, or_false]
  · rw [descend, List.getElem?_append_right (by omega), hlength, places, List.map_map, List.getElem?_map,
      hgetD]
    simp only [hi, false_and, Nat.not_lt.mp hi, true_and, false_or]
    by_cases hk : i - (x.length - 1) < (p.networkOf (some m)).tasks.length
    · simp [hk, eq_comm]
    · simp [hk]

theorem length_descend_method {t m : Nat} (ht : t < x.length) :
    (p.descend x t (.method m)).length = x.length - 1 + (p.networkOf (some m)).tasks.length := by
  rw [descend, List.length_append, List.length_map, places, List.length_map, List.length_range,
    List.length_eraseIdx_of_lt ht]

theorem Inherits.holds_decompose {n : TaskNetwork} (h : Inherits p n x) {t m : Nat} (ht : t ∈ n.first)
    (hm : (p.networkOf (some m)).Ordered) {i j : Nat} (hi : i < (p.descend x t (.method m)).length)
    (hj : j < (p.descend x t (.method m)).length) :
    (n.decompose t (p.networkOf (some m)).tasks (p.networkOf (some m)).order).order.holds i j =
      n.order.spliced t (p.networkOf (some m)).order i j := by
  obtain ⟨htsize, hfirst⟩ := FinRel.mem_minimal.mp ht
  have hsize : n.order.size = x.length := by rw [h.size, h.length]
  have htx : t < x.length := by rwa [← hsize]
  rw [length_descend_method htx, ← hsize, ← hm.size] at hi hj
  exact FinRel.holds_splice h.transitive hm.transitive (hfirst t) hi hj

theorem Inherits.decompose {n : TaskNetwork} (h : Inherits p n x) {t m : Nat} (ht : t ∈ n.first)
    (hm : (p.networkOf (some m)).Ordered) :
    Inherits p (n.decompose t (p.networkOf (some m)).tasks (p.networkOf (some m)).order)
      (p.descend x t (.method m)) := by
  obtain ⟨htsize, hfirst⟩ := FinRel.mem_minimal.mp ht
  have hsize : n.order.size = x.length := by rw [h.size, h.length]
  have htx : t < x.length := by rwa [← hsize]
  have hget : x[t]? = some x[t] := List.getElem?_eq_getElem htx
  obtain ⟨k₀, a₀, ht₀, hown₀, hold₀⟩ := h.own hget
  have hlength : (n.decompose t (p.networkOf (some m)).tasks (p.networkOf (some m)).order).tasks.length =
      x.length - 1 + (p.networkOf (some m)).tasks.length := by
    rw [TaskNetwork.decompose, List.length_append, List.length_eraseIdx_of_lt (by rwa [← h.length]), h.length]
  have hholds : ∀ {i j l k}, (p.descend x t (.method m))[i]? = some l →
      (p.descend x t (.method m))[j]? = some k →
      (n.decompose t (p.networkOf (some m)).tasks (p.networkOf (some m)).order).order.holds i j =
        n.order.spliced t (p.networkOf (some m)).order i j := fun hi hj =>
    h.holds_decompose ht hm (List.getElem?_eq_some_iff.mp hi).1 (List.getElem?_eq_some_iff.mp hj).1
  refine ⟨h.toOrdered.decompose (h.lt_length hget) hm.size, ?_, ?_, ?_⟩
  · rw [hlength, length_descend_method htx]
  · intro i j l k hi hj hij
    rw [hholds hi hj, FinRel.spliced, hsize]
    rcases (getElem?_descend_method htx).mp hi with ⟨hik, hl⟩ | ⟨hik, -, rfl⟩ <;>
      rcases (getElem?_descend_method htx).mp hj with ⟨hjk, hk⟩ | ⟨hjk, -, rfl⟩
    · obtain ⟨a, b, hab, hmethod, hp⟩ := h.apart hl hk fun h => hij (FinRel.skip_injective h)
      exact ⟨a, b, hab, hmethod, by simpa [hik, hjk] using hp⟩
    · obtain ⟨a, b, hab, hmethod, hp⟩ := h.apart hl hget (FinRel.skip_ne t i)
      have hab := Lineage.parting_append hab [] [⟨some m, j - (x.length - 1)⟩]
      exact ⟨a, b, by simpa using hab, hmethod, by simpa [hik, Nat.not_lt.mpr hjk] using hp⟩
    · obtain ⟨a, b, hab, hmethod, hp⟩ := h.apart hget hk (FinRel.skip_ne t j).symm
      have hab := Lineage.parting_append hab [⟨some m, i - (x.length - 1)⟩] []
      exact ⟨a, b, by simpa using hab, hmethod, by simpa [hjk, Nat.not_lt.mpr hik] using hp⟩
    · refine ⟨⟨some m, i - (x.length - 1)⟩, ⟨some m, j - (x.length - 1)⟩,
        Lineage.parting_eq_some_iff.mpr ⟨?_, x[t], [], [], rfl, rfl⟩, rfl, ?_⟩
      · intro heq
        have hindex : i - (x.length - 1) = j - (x.length - 1) := congrArg Place.index heq
        omega
      · simp [precedes, Nat.not_lt.mpr hik, Nat.not_lt.mpr hjk]
  · intro i l hi
    rw [hholds hi hi, FinRel.spliced, hsize]
    rcases (getElem?_descend_method htx).mp hi with ⟨hik, hl⟩ | ⟨hik, -, rfl⟩
    · obtain ⟨k, a, hk, hp, hold⟩ := h.own hl
      exact ⟨k, a, hk, by simpa [hik] using hp, hold⟩
    · refine ⟨x[t], _, rfl, by simp [precedes, Nat.not_lt.mpr hik], fun b hb => ?_⟩
      rw [ht₀] at hb
      rcases List.mem_append.mp hb with hb | hb
      · exact hold₀ b hb
      · rw [List.mem_singleton.mp hb, ← hown₀]
        exact hfirst t

/-- Nothing that is worked on descends from a place that comes after another one with descendants. -/
theorem Inherits.before {n : TaskNetwork} (h : Inherits p n x) {i : Nat} {l above : Lineage} {a b : Place}
    (hi : i ∈ n.first) (hl : x[i]? = some l) (hab : p.precedes a b = true) (hb : above ++ [b] <+: l) :
    ∀ k ∈ x, ¬ above ++ [a] <+: k := by
  intro k hk ha
  obtain ⟨-, hfirst⟩ := FinRel.mem_minimal.mp hi
  obtain ⟨j, hj⟩ := List.mem_iff_getElem?.mp hk
  obtain ⟨u, rfl⟩ := ha
  obtain ⟨v, rfl⟩ := hb
  by_cases heq : a = b
  · subst heq
    obtain ⟨c, a', hc, hown, hold⟩ := h.own hl
    rcases List.eq_nil_or_concat v with rfl | ⟨v, b, rfl⟩
    · have hlast : above = c ∧ a = a' := by simpa using hc
      rw [hfirst i, ← hlast.2, hab] at hown
      exact Bool.false_ne_true hown
    · have hc' : above ++ [a] ++ v = c ∧ b = a' := by simpa [← List.append_assoc] using hc
      have ha : p.precedes a a = false := hold a (by simp [← hc'.1])
      exact Bool.false_ne_true (ha.symm.trans hab)
  · have hparting : Lineage.parting (above ++ [a] ++ u) (above ++ [b] ++ v) = some (a, b) :=
      Lineage.parting_eq_some_iff.mpr ⟨heq, above, u, v, by simp, by simp⟩
    have hij : j ≠ i := by
      rintro rfl
      have hsame := Option.some.inj (hj.symm.trans hl)
      simp only [List.append_assoc, List.append_cancel_left_eq, List.singleton_append, List.cons.injEq] at hsame
      exact heq hsame.1
    obtain ⟨a', b', hparting', -, hholds⟩ := h.apart hj hl hij
    obtain ⟨rfl, rfl⟩ := Prod.mk.inj (Option.some.inj (hparting'.symm.trans hparting))
    rw [hfirst j, hab] at hholds
    exact Bool.false_ne_true hholds

theorem Inherits.mem_first_iff {n : TaskNetwork} (h : Inherits p n x) {i : Nat} :
    i ∈ n.first ↔ ∃ l, x[i]? = some l ∧ ∀ above a b, p.precedes a b = true → above ++ [b] <+: l →
      ∀ k ∈ x, ¬ above ++ [a] <+: k := by
  constructor
  · intro hi
    have hix : i < x.length := by
      rw [h.length, ← h.size]
      exact (FinRel.mem_minimal.mp hi).1
    have hl := List.getElem?_eq_getElem hix
    exact ⟨x[i], hl, fun above a b hab hb => h.before hi hl hab hb⟩
  · rintro ⟨l, hl, hfree⟩
    refine FinRel.mem_minimal.mpr ⟨by rw [h.size]; exact h.lt_length hl, fun j => ?_⟩
    by_contra hji
    have hji : n.order.holds j i = true := by simpa using hji
    have hjx : j < x.length := by
      rw [h.length, ← h.size]
      exact FinRel.lt_size_of_holds hji
    have hj := List.getElem?_eq_getElem hjx
    by_cases hij : j = i
    · subst hij
      obtain ⟨k, a, rfl, hown, -⟩ := h.own hl
      exact hfree k a a (hown ▸ hji) (List.prefix_refl _) _ (List.mem_of_getElem? hl) (List.prefix_refl _)
    · obtain ⟨a, b, hparting, -, hholds⟩ := h.apart hj hl hij
      obtain ⟨-, above, u, v, hu, rfl⟩ := Lineage.parting_eq_some_iff.mp hparting
      refine hfree above a b (hholds ▸ hji) ⟨v, by simp⟩ _ (List.getElem_mem hjx) ?_
      rw [hu]
      exact ⟨u, by simp⟩

theorem Inherits.initial (h : (p.networkOf none).Ordered) : Inherits p p.initialNetwork p.initialLineages := by
  have hget : ∀ {i : Nat} {l : Lineage}, p.initialLineages[i]? = some l → l = [⟨none, i⟩] := by
    intro i l hi
    simp only [initialLineages, places, List.map_map, List.getElem?_map, Option.map_eq_some_iff] at hi
    obtain ⟨k, hk, rfl⟩ := hi
    obtain ⟨-, rfl⟩ := List.getElem?_eq_some_iff.mp hk
    simp
  refine ⟨h, by simp [initialLineages, places, networkOf], ?_, ?_⟩
  · intro i j l k hi hj hij
    rw [hget hi, hget hj]
    refine ⟨⟨none, i⟩, ⟨none, j⟩, by simp [Lineage.parting, hij], rfl, by simp [precedes, networkOf]⟩
  · intro i l hi
    exact ⟨[], ⟨none, i⟩, hget hi, by simp [precedes, networkOf], by simp⟩

theorem Inherits.successor (h : Inherits p s.network x) (hordered : ∀ m, (p.networkOf m).Ordered)
    {position : Nat} (hnext : position ∈ s.network.first) (hs : ⟨o, t⟩ ∈ p.successorsAt s position) :
    Inherits p t.network (p.descend x position o) := by
  rcases network_of_mem_successorsAt hs with ⟨i, rfl, ht⟩ | ⟨m, rfl, ht⟩
  · rw [ht]
    apply h.remove
    rw [← h.size]
    exact (FinRel.mem_minimal.mp hnext).1
  · rw [ht]
    exact h.decompose hnext (hordered _)

theorem TracedRun.inherits (h : p.TracedRun s x os t y) (hordered : ∀ m, (p.networkOf m).Ordered)
    (hx : Inherits p s.network x) : Inherits p t.network y := by
  induction h with
  | nil s x => exact hx
  | cons next first _ ih => exact ih (hx.successor hordered next first)

theorem TracedRun.exists_prefix (h : p.TracedRun s x os t y) (hordered : ∀ m, (p.networkOf m).Ordered)
    (hx : Inherits p s.network x) {k : Lineage} (hk : k ∈ y) : ∃ l ∈ x, l <+: k := by
  induction h with
  | nil s x => exact ⟨k, hk, List.prefix_refl k⟩
  | @cons s t u x y position o os next first _ ih =>
      obtain ⟨l, hl, hlk⟩ := ih (hx.successor hordered next first) hk
      cases o with
      | action i => exact ⟨l, List.mem_of_mem_eraseIdx hl, hlk⟩
      | method m =>
          rcases List.mem_append.mp hl with hl | hl
          · exact ⟨l, List.mem_of_mem_eraseIdx hl, hlk⟩
          · obtain ⟨a, -, rfl⟩ := List.mem_map.mp hl
            have hposition : position < x.length := by
              rw [hx.length, ← hx.size]
              exact (FinRel.mem_minimal.mp next).1
            refine ⟨x[position], List.getElem_mem hposition, List.IsPrefix.trans ?_ hlk⟩
            exact ⟨[a], by simp [List.getD_eq_getElem?_getD, List.getElem?_eq_getElem hposition]⟩

/-- When an entry below a place can be worked on, nothing is left below the places before it, and
nothing will be. -/
theorem TracedRun.gone (h : p.TracedRun s x os t y) (hordered : ∀ m, (p.networkOf m).Ordered)
    (hx : Inherits p s.network x) {i : Nat} {l above : Lineage} {a b : Place} (hi : i ∈ s.network.first)
    (hl : x[i]? = some l) (hab : p.precedes a b = true) (hb : above ++ [b] <+: l) :
    ∀ k ∈ y, ¬ above ++ [a] <+: k := by
  intro k hk ha
  have hnow := hx.before hi hl hab hb
  obtain ⟨k₀, hk₀, hprefix⟩ := h.exists_prefix hordered hx hk
  rcases List.prefix_or_prefix_of_prefix ha hprefix with hlong | hshort
  · exact hnow k₀ hk₀ hlong
  rcases List.prefix_concat_iff.mp hshort with rfl | habove
  · exact hnow _ hk₀ (List.prefix_refl _)
  -- an ancestor of the entry would still be there, but entries part from each other
  have hkl : k₀ <+: l := habove.trans ((List.prefix_append above [b]).trans hb)
  obtain ⟨j, hj⟩ := List.mem_iff_getElem?.mp hk₀
  have hji : j ≠ i := by
    rintro rfl
    obtain rfl := Option.some.inj (hj.symm.trans hl)
    have hle := (hb.trans habove).length_le
    rw [List.length_append, List.length_singleton] at hle
    omega
  obtain ⟨a', b', hparting, -⟩ := hx.apart hj hl hji
  obtain ⟨hne, c, u, v, rfl, rfl⟩ := Lineage.parting_eq_some_iff.mp hparting
  rw [List.prefix_append_right_inj, List.cons_prefix_cons] at hkl
  exact hne hkl.1

end EncodedProblem

end HtnPlanner
