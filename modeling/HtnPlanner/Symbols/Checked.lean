import HtnPlanner.Symbols.Basic

/-!
Operations on symbols by ids that may name nothing; there is no answer where one would be needed.
-/

namespace HtnPlanner.Symbols

def hasType (s : Symbols) (t : Nat) : Bool := t < s.types.length

def isSubtype? (s : Symbols) (sub sup : Nat) : Option Bool :=
  if s.hasType sub ∨ sub = sup then some (s.isSubtype sub sup) else none

def isOfType? (s : Symbols) (constant type : Nat) : Option Bool :=
  (s.constants.definition? constant).bind (s.isSubtype? · type)

def domain? (s : Symbols) (t : Nat) : Option (List Nat) := s.types[t]?.map (·.domain)

def addSupertype? (sub sup : Nat) (s : Symbols) : Option Symbols :=
  if sub = sup ∨ s.hasType sub ∧ s.hasType sup then some (s.addSupertype sub sup) else none

def declareUnion? (members : List Nat) (s : Symbols) : Option (Nat × Symbols) :=
  match members.eraseDups with
  | [t] => some (t, s)
  | ts => if ts.all s.hasType then some (s.declareUnion ts) else none

def close? (s : Symbols) : Option Symbols :=
  if s.constants.entries.all (s.hasType ·.2) then some s.close else none

/-- A new constant needs a type that is there once the domains are in use. -/
def declareConstant? (name : String) (type : Nat) (s : Symbols) :
    Option (Except GroundingError (Nat × Symbols)) :=
  if s.closed ∧ !s.hasType type ∧ (s.constants.id? name).isNone then none
  else some (s.declareConstant name type)

end HtnPlanner.Symbols
