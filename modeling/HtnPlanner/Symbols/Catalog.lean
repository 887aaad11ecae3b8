namespace HtnPlanner

/-- Names in the order in which they were declared, each with its definition. The id of a name is its
place. -/
structure Catalog (α : Type) where
  entries : List (String × α) := []
  deriving DecidableEq, Repr, Inhabited

namespace Catalog

variable {α : Type}

def size (c : Catalog α) : Nat := c.entries.length

def id? (c : Catalog α) (name : String) : Option Nat := c.entries.findIdx? (·.1 == name)

def name? (c : Catalog α) (id : Nat) : Option String := c.entries[id]?.map (·.1)

def definition? (c : Catalog α) (id : Nat) : Option α := c.entries[id]?.map (·.2)

/-- The id of the name, after adding it if it is new. There is none if the name has another
definition. -/
def declare? [DecidableEq α] (c : Catalog α) (name : String) (d : α) : Option (Nat × Catalog α) :=
  match c.id? name with
  | none => some (c.size, ⟨c.entries ++ [(name, d)]⟩)
  | some id => if c.definition? id = some d then some (id, c) else none

end Catalog

end HtnPlanner
