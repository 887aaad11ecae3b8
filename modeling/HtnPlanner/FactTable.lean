import Std.Data.TreeMap

namespace HtnPlanner

/-- Tuples of constants in order of insertion, indexed by position and constant. -/
structure FactTable where
  facts : List (List Nat)
  /-- For each position, the places in `facts` of the tuples with a given constant there. -/
  index : List (Std.TreeMap Nat (List Nat))

namespace FactTable

def empty (arity : Nat) : FactTable := ⟨[], List.replicate arity ∅⟩

instance : Inhabited FactTable := ⟨empty 0⟩

def arity (t : FactTable) : Nat := t.index.length

def size (t : FactTable) : Nat := t.facts.length

def contains (t : FactTable) (args : List Nat) : Bool := t.facts.contains args

def occurrences (t : FactTable) (position constant : Nat) : List Nat :=
  (t.index[position]?.bind (·[constant]?)).getD []

/-- Notes in the index of a position that the tuple stored at a place has a constant there. -/
def note (place : Nat) (constant : Option Nat) (index : Std.TreeMap Nat (List Nat)) :
    Std.TreeMap Nat (List Nat) :=
  match constant with
  | some c => index.insert c (index.getD c [] ++ [place])
  | none => index

def insert (t : FactTable) (args : List Nat) : FactTable :=
  if t.contains args then t
  else ⟨t.facts ++ [args], t.index.mapIdx fun position => note t.size args[position]?⟩

def ofList (arity : Nat) (facts : List (List Nat)) : FactTable := facts.foldl insert (empty arity)

/-- The tuple has the pattern's constants wherever the pattern has one. -/
def fits (pattern : List (Option Nat)) (args : List Nat) : Bool :=
  (pattern.zip args).all fun p => p.1.all (· == p.2)

def shortest : List (List Nat) → Option (List Nat)
  | [] => none
  | l :: ls => some (ls.foldl (fun best l => if l.length < best.length then l else best) l)

def occurrenceLists (t : FactTable) (pattern : List (Option Nat)) : List (List Nat) :=
  pattern.zipIdx.filterMap fun p => p.1.map (t.occurrences p.2)

/-- The tuples that fit the pattern, in order of insertion. Only the shortest occurrence list of a
constant in the pattern is searched. -/
def matching (t : FactTable) (pattern : List (Option Nat)) : List (List Nat) :=
  match shortest (t.occurrenceLists pattern) with
  | some places => (places.filterMap (t.facts[·]?)).filter (fits pattern)
  | none => t.facts

/-- `insert`, when the index has a position for every constant. -/
def insert? (t : FactTable) (args : List Nat) : Option FactTable :=
  if t.contains args ∨ args.length ≤ t.arity then some (t.insert args) else none

def matching? (t : FactTable) (pattern : List (Option Nat)) : Option (List (List Nat)) :=
  if (pattern.drop t.arity).all (·.isNone) then some (t.matching pattern) else none

end FactTable

end HtnPlanner
