import HtnPlanner.Proofs.Encoded.State
import HtnPlanner.Proofs.Order.Reach
import Std.Data.HashMap.Lemmas

/-!
Members in the order in which they came, and apart from them a map with the number of each. Each of the two is added
to by itself. They agree as long as a key that is not in the map gets the place of its member as its number.
-/

namespace HtnPlanner

/-- Names and ids belong to each other, and the ids are the numbers below the size. -/
structure Numbering {κ : Type} (size : Nat) (id? : κ → Option Nat) (name? : Nat → Option κ) : Prop where
  id_iff : ∀ name id, id? name = some id ↔ name? id = some name
  lt_iff : ∀ id, id < size ↔ ∃ name, name? id = some name

theorem numbering_of_nodup {κ : Type} [BEq κ] [LawfulBEq κ] {names : List κ} (h : names.Nodup) :
    Numbering names.length (names.idxOf? ·) (names[·]?) := by
  refine ⟨fun name id => idxOf?_eq_some_iff_of_nodup h, fun id => ?_⟩
  rw [← Option.isSome_iff_exists, isSome_getElem?]

theorem getElem?_of_isPrefix {α : Type} {l l' : List α} {i : Nat} {a : α} (h : l <+: l') (hi : l[i]? = some a) :
    l'[i]? = some a := by
  obtain ⟨later, rfl⟩ := h
  rwa [List.getElem?_append_left (List.getElem?_eq_some_iff.mp hi).1]

theorem idxOf?_append {κ : Type} [BEq κ] (l l' : List κ) (k : κ) :
    (l ++ l').idxOf? k = (l.idxOf? k).or ((l'.idxOf? k).map (· + l.length)) := List.findIdx?_append

/-- Nothing ties the list and the map to each other. -/
structure Registry (κ α : Type) [BEq κ] [Hashable κ] where
  members : List α := []
  numbers : Std.HashMap κ Nat := ∅

namespace Registry

variable {κ α : Type} [BEq κ] [Hashable κ]

def push (r : Registry κ α) (a : α) : Registry κ α := { r with members := r.members ++ [a] }

def assign (r : Registry κ α) (k : κ) (i : Nat) : Registry κ α := { r with numbers := r.numbers.insert k i }

/-- A key that is its own member is entered at the end, unless it is there. -/
def intern (r : Registry κ κ) (k : κ) : Registry κ κ :=
  match r.numbers[k]? with
  | some _ => r
  | none => (r.push k).assign k ((r.push k).members.length - 1)

/-- The list has no key twice, and the map has the place of each. -/
structure Holds (key : α → κ) (r : Registry κ α) (l : List α) : Prop where
  members : r.members = l
  nodup : (l.map key).Nodup
  numbers : ∀ k, r.numbers[k]? = (l.map key).idxOf? k

/-- What was entered is still there, and has the number that it had. -/
structure Kept (r r' : Registry κ α) : Prop where
  members : r.members <+: r'.members
  numbers : ∀ (k : κ) i, r.numbers[k]? = some i → r'.numbers[k]? = some i

variable {key : α → κ} {r r' : Registry κ α} {l l' : List α} {a : α} {k : κ} {i : Nat}

theorem holds_empty : Holds key ({} : Registry κ α) [] :=
  ⟨rfl, List.nodup_nil, fun _ => Std.HashMap.getElem?_empty⟩

theorem Holds.numbers_id {r : Registry κ κ} {l : List κ} (h : r.Holds id l) (k : κ) : r.numbers[k]? = l.idxOf? k := by
  rw [h.numbers, List.map_id]

theorem Holds.kept (h : r.Holds key l) (h' : r'.Holds key l') (hlater : l <+: l') : r.Kept r' := by
  refine ⟨by rwa [h.members, h'.members], fun k i hi => ?_⟩
  obtain ⟨later, rfl⟩ := hlater
  rw [h'.numbers, List.map_append, idxOf?_append, ← h.numbers, hi]
  rfl

variable [LawfulBEq κ]

theorem Holds.numbering (h : r.Holds key l) :
    Numbering r.members.length (r.numbers[·]?) ((r.members.map key)[·]?) := by
  have hnumbering := numbering_of_nodup h.nodup
  rw [h.members, funext h.numbers]
  rwa [List.length_map] at hnumbering

theorem Holds.numbers_eq_none_iff (h : r.Holds key l) : r.numbers[k]? = none ↔ k ∉ l.map key := by
  rw [h.numbers, List.idxOf?_eq_none_iff]

theorem Holds.push (h : r.Holds key l) (hnew : r.numbers[key a]? = none) :
    ((r.push a).assign (key a) r.members.length).Holds key (l ++ [a]) := by
  have hfresh := h.numbers_eq_none_iff.mp hnew
  refine ⟨congrArg (· ++ [a]) h.members, ?_, fun k => ?_⟩
  · rw [List.map_append]
    exact h.nodup.append (List.nodup_singleton _) (List.disjoint_singleton.mpr hfresh)
  · change (r.numbers.insert (key a) r.members.length)[k]? = _
    rw [h.members, Std.HashMap.getElem?_insert, h.numbers, List.map_append, idxOf?_append]
    by_cases hk : key a = k
    · subst hk
      rw [if_pos (beq_self_eq_true _), List.idxOf?_eq_none_iff.mpr hfresh]
      simp
    · rw [if_neg (by simpa using hk)]
      simp [hk]

theorem Holds.foldl_intern [DecidableEq κ] {r : Registry κ κ} {l : List κ} (h : r.Holds id l) (ks : List κ) :
    (ks.foldl intern r).Holds id (ks.foldl insertNew l) := by
  induction ks generalizing r l with
  | nil => exact h
  | cons k ks ih =>
      refine ih ?_
      rw [intern, insertNew]
      cases hk : r.numbers[k]? with
      | some i =>
          have hmem : k ∈ l := by simpa [hk] using h.numbers_eq_none_iff (k := k)
          rwa [if_pos hmem]
      | none =>
          have hmem : k ∉ l := by simpa using h.numbers_eq_none_iff.mp hk
          have hlength : (r.push k).members.length - 1 = r.members.length := by simp [Registry.push]
          dsimp only
          rw [if_neg hmem, hlength]
          exact h.push hk

end Registry

end HtnPlanner
