import HtnPlanner.IndexSet

namespace HtnPlanner

/-- A relation between the numbers below `rows.length`; row `i` holds what `i` is related to. -/
structure FinRel where
  rows : List IndexSet
  deriving DecidableEq, Repr, Inhabited

namespace FinRel

def size (r : FinRel) : Nat := r.rows.length

def empty (n : Nat) : FinRel := ⟨List.replicate n .empty⟩

def row (r : FinRel) (i : Nat) : IndexSet := r.rows.getD i .empty

def holds (r : FinRel) (i j : Nat) : Bool := (r.row i).contains j

def ofPred (n : Nat) (p : Nat → Nat → Bool) : FinRel :=
  ⟨(List.range n).map fun i => IndexSet.ofPred n (p i)⟩

def add (r : FinRel) (i j : Nat) : FinRel := ⟨r.rows.modify i (·.insert j)⟩

def addAll (r : FinRel) (pairs : List (Nat × Nat)) : FinRel :=
  pairs.foldl (fun r p => r.add p.1 p.2) r

/-- Whatever is related to `k` becomes related to all that `k` is related to. -/
def closeThrough (r : FinRel) (k : Nat) : FinRel :=
  ⟨r.rows.map fun s => if s.contains k then s.union (r.row k) else s⟩

def close (r : FinRel) : FinRel := (List.range r.size).foldl closeThrough r

def ofPairs (n : Nat) (pairs : List (Nat × Nat)) : FinRel := ((empty n).addAll pairs).close

def pairs (r : FinRel) : List (Nat × Nat) :=
  (List.range r.size).flatMap fun i => ((List.range r.size).filter (r.holds i)).map (i, ·)

/-- The least transitive relation in which each number is related to the next. -/
def chain (n : Nat) : FinRel := ofPairs n ((List.range (n - 1)).map fun i => (i, i + 1))

def hasPredecessor (r : FinRel) (j : Nat) : Bool := r.rows.any (·.contains j)

/-- The numbers to which nothing is related, ascending. -/
def minimal (r : FinRel) : List Nat := (List.range r.size).filter fun j => !r.hasPredecessor j

/-- Nothing is related to itself, and two different numbers are related in one direction only. -/
def isTotal (r : FinRel) : Bool :=
  (List.range r.size).all fun i =>
    !r.holds i i && (List.range r.size).all fun j => j ≤ i || r.holds i j != r.holds j i

/-- The number that takes place `i` once the number `t` is taken out. -/
def skip (t i : Nat) : Nat := if i < t then i else i + 1

/-- The place of `i` once the number `t` is taken out. -/
def unskip (t i : Nat) : Nat := if t < i then i - 1 else i

/-- The relation without the number `t`; the numbers after it move down by one. -/
def erase (r : FinRel) (t : Nat) : FinRel :=
  ofPred (r.size - 1) fun i j => r.holds (skip t i) (skip t j)

/-- Puts the numbers of `inner` in the place of `t`. They follow the numbers that are kept, and each
of them has the predecessors and the successors of `t`. -/
def splice (r : FinRel) (t : Nat) (inner : FinRel) : FinRel :=
  let kept := r.size - 1
  close <| ofPred (kept + inner.size) fun i j =>
    match decide (i < kept), decide (j < kept) with
    | true, true => r.holds (skip t i) (skip t j)
    | true, false => r.holds (skip t i) t
    | false, true => r.holds t (skip t j)
    | false, false => inner.holds (i - kept) (j - kept)

def inRange (n : Nat) (pairs : List (Nat × Nat)) : Bool := pairs.all fun p => p.1 < n && p.2 < n

def ofPairs? (n : Nat) (pairs : List (Nat × Nat)) : Option FinRel :=
  if inRange n pairs then some (ofPairs n pairs) else none

def add? (r : FinRel) (i j : Nat) : Option FinRel :=
  if i < r.size ∧ j < r.size then some (r.add i j) else none

def holds? (r : FinRel) (i j : Nat) : Option Bool := r.rows[i]?.map (·.contains j)

/-- `erase`, when every pair that does not mention `t` still has a place afterwards. -/
def erase? (r : FinRel) (t : Nat) : Option FinRel :=
  let rest := r.pairs.filter fun p => p.1 != t && p.2 != t
  if 0 < r.size ∧ inRange (r.size - 1) (rest.map fun p => (unskip t p.1, unskip t p.2)) then
    some (r.erase t)
  else
    none

def splice? (r : FinRel) (t : Nat) (inner : FinRel) : Option FinRel := do
  let _ ← r.erase? t
  if t < r.size ∨ inner.size = 0 then some (r.splice t inner) else none

theorem ext {r q : FinRel} (hsize : r.size = q.size) (h : ∀ i j, r.holds i j = q.holds i j) :
    r = q := by
  cases r with
  | mk rs =>
  cases q with
  | mk qs =>
  refine congrArg _ (List.ext_getElem hsize fun i hr hq => IndexSet.ext fun j => ?_)
  have hij := h i j
  simpa [holds, row, List.getD_eq_getElem?_getD, List.getElem?_eq_getElem, hr, hq] using hij

@[simp] theorem size_empty (n : Nat) : (empty n).size = n := by simp [size, empty]

@[simp] theorem size_ofPred (n : Nat) (p : Nat → Nat → Bool) : (ofPred n p).size = n := by
  simp [size, ofPred]

@[simp] theorem size_add (r : FinRel) (i j : Nat) : (r.add i j).size = r.size := by
  simp [size, add]

@[simp] theorem size_closeThrough (r : FinRel) (k : Nat) : (r.closeThrough k).size = r.size := by
  simp [size, closeThrough]

@[simp] theorem holds_empty (n i j : Nat) : (empty n).holds i j = false := by
  simp only [holds, row, empty, List.getD_eq_getElem?_getD, List.getElem?_replicate]
  split <;> simp

@[simp] theorem holds_ofPred (n : Nat) (p : Nat → Nat → Bool) (i j : Nat) :
    (ofPred n p).holds i j = (decide (i < n) && (decide (j < n) && p i j)) := by
  simp only [holds, row, ofPred, List.getD_eq_getElem?_getD, List.getElem?_map]
  by_cases h : i < n <;> simp [h]

theorem holds_add (r : FinRel) {i : Nat} (h : i < r.size) (j a b : Nat) :
    (r.add i j).holds a b = (r.holds a b || decide (i = a ∧ j = b)) := by
  simp only [holds, row, add, List.getD_eq_getElem?_getD, List.getElem?_modify]
  have hi : i < r.rows.length := h
  by_cases hia : i = a
  · subst hia; simp [hi]
  · simp [hia]

theorem holds_closeThrough (r : FinRel) (k i j : Nat) :
    (r.closeThrough k).holds i j = (r.holds i j || (r.holds i k && r.holds k j)) := by
  simp only [holds, row, closeThrough, List.getD_eq_getElem?_getD, List.getElem?_map]
  cases r.rows[i]? with
  | none => simp
  | some s => cases hk : s.contains k <;> simp [hk]

end FinRel

end HtnPlanner
