namespace HtnPlanner

/-- A finite set of indices, held as the number whose binary digits mark the members. -/
structure IndexSet where
  bits : Nat
  deriving DecidableEq, Repr, Inhabited

namespace IndexSet

def empty : IndexSet := ⟨0⟩

def contains (s : IndexSet) (i : Nat) : Bool := s.bits.testBit i

def insert (s : IndexSet) (i : Nat) : IndexSet := ⟨s.bits ||| 1 <<< i⟩

def union (s t : IndexSet) : IndexSet := ⟨s.bits ||| t.bits⟩

def diff (s t : IndexSet) : IndexSet := ⟨s.bits ^^^ (s.bits &&& t.bits)⟩

def subset (s t : IndexSet) : Bool := s.bits &&& t.bits == s.bits

def disjoint (s t : IndexSet) : Bool := s.bits &&& t.bits == 0

def isEmpty (s : IndexSet) : Bool := s.bits == 0

def ofList (l : List Nat) : IndexSet := l.foldl insert empty

/-- The members of `s` are the indices below this number that `s` contains. -/
def bound (s : IndexSet) : Nat := if s.bits = 0 then 0 else s.bits.log2 + 1

def toList (s : IndexSet) : List Nat := (List.range s.bound).filter s.contains

def ofPred (n : Nat) (p : Nat → Bool) : IndexSet := ofList ((List.range n).filter p)

def render (s : IndexSet) : String :=
  "\x7b" ++ ", ".intercalate (s.toList.map toString) ++ "\x7d"

theorem ext {s t : IndexSet} (h : ∀ i, s.contains i = t.contains i) : s = t := by
  cases s; cases t
  exact congrArg _ (Nat.eq_of_testBit_eq h)

@[simp] theorem contains_empty (i : Nat) : empty.contains i = false := Nat.zero_testBit i

@[simp] theorem contains_insert (s : IndexSet) (i j : Nat) :
    (s.insert i).contains j = (s.contains j || decide (i = j)) := by
  simp [contains, insert, Nat.one_shiftLeft, Nat.testBit_two_pow]

@[simp] theorem contains_union (s t : IndexSet) (i : Nat) :
    (s.union t).contains i = (s.contains i || t.contains i) :=
  Nat.testBit_or ..

@[simp] theorem contains_diff (s t : IndexSet) (i : Nat) :
    (s.diff t).contains i = (s.contains i && !t.contains i) := by
  simp only [contains, diff, Nat.testBit_xor, Nat.testBit_and]
  cases s.bits.testBit i <;> simp

theorem contains_foldl_insert (l : List Nat) (s : IndexSet) (i : Nat) :
    (l.foldl insert s).contains i = (s.contains i || l.contains i) := by
  induction l generalizing s with
  | nil => simp
  | cons a l ih => simp [ih, Bool.or_assoc, eq_comm (a := i)]

@[simp] theorem contains_ofList (l : List Nat) (i : Nat) : (ofList l).contains i = l.contains i := by
  simp [ofList, contains_foldl_insert]

@[simp] theorem contains_ofPred (n : Nat) (p : Nat → Bool) (i : Nat) :
    (ofPred n p).contains i = (decide (i < n) && p i) := by
  rw [ofPred, contains_ofList, Bool.eq_iff_iff]
  simp

theorem subset_iff {s t : IndexSet} :
    s.subset t = true ↔ ∀ i, s.contains i = true → t.contains i = true := by
  simp only [subset, beq_iff_eq, contains]
  constructor
  · intro h i hi
    have h' := congrArg (Nat.testBit · i) h
    simp only [Nat.testBit_and, hi, Bool.true_and] at h'
    exact h'
  · intro h
    refine Nat.eq_of_testBit_eq fun i => ?_
    rw [Nat.testBit_and]
    cases hs : s.bits.testBit i with
    | false => rfl
    | true => simp [h i hs]

theorem disjoint_iff {s t : IndexSet} :
    s.disjoint t = true ↔ ∀ i, s.contains i = true → t.contains i = false := by
  simp only [disjoint, beq_iff_eq, contains]
  constructor
  · intro h i hi
    have h' := congrArg (Nat.testBit · i) h
    simpa [hi] using h'
  · intro h
    refine Nat.eq_of_testBit_eq fun i => ?_
    rw [Nat.testBit_and, Nat.zero_testBit]
    cases hs : s.bits.testBit i with
    | false => rfl
    | true => simp [h i hs]

end IndexSet

end HtnPlanner
