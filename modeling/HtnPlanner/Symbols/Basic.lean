import HtnPlanner.Definition.Basic
import HtnPlanner.Error
import HtnPlanner.Fact
import HtnPlanner.FinRel
import HtnPlanner.Symbols.Catalog

namespace HtnPlanner

structure TypeEntry where
  name : String
  supertypes : List Nat
  domain : List Nat
  deriving DecidableEq, Repr, Inhabited

def TypeEntry.addSupertype (sup : Nat) (t : TypeEntry) : TypeEntry :=
  { t with supertypes := t.supertypes ++ [sup] }

structure TaskSignature where
  parameters : List Nat
  primitive : Bool
  deriving DecidableEq, Repr, Inhabited

/-- The numbered types, constants, predicates and tasks of a problem. A constant is defined by its
type, a predicate by the types of its arguments. -/
structure Symbols where
  types : List TypeEntry := [⟨"object", [], []⟩]
  /-- The domains of the types are filled in and follow every change. -/
  closed : Bool := false
  constants : Catalog Nat := {}
  predicates : Catalog (List Nat) := {}
  tasks : Catalog TaskSignature := {}
  deriving DecidableEq, Repr, Inhabited

namespace Symbols

def objectType : Nat := 0

def typeId? (s : Symbols) (name : String) : Option Nat := s.types.findIdx? (·.name == name)

def typeName (s : Symbols) (t : Nat) : String := s.types[t]?.elim "" (·.name)

def ancestors (s : Symbols) : FinRel :=
  FinRel.close ⟨s.types.map fun t => IndexSet.ofList t.supertypes⟩

def isSubtype (s : Symbols) (sub sup : Nat) : Bool := sub == sup || s.ancestors.holds sub sup

def isOfType (s : Symbols) (constant type : Nat) : Bool :=
  (s.constants.definition? constant).any (s.isSubtype · type)

/-- The constants of the type and of its subtypes, ascending. -/
def domain (s : Symbols) (t : Nat) : List Nat := s.types[t]?.elim [] (·.domain)

/-- The constants below each type, by a relation from the types to their proper supertypes. -/
def constantsBelow (s : Symbols) (up : FinRel) (t : Nat) : List Nat :=
  (List.range s.constants.size).filter fun c =>
    (s.constants.definition? c).any fun u => u == t || up.holds u t

def close (s : Symbols) : Symbols :=
  let up := s.ancestors
  { s with
    types := s.types.mapIdx fun t entry => { entry with domain := s.constantsBelow up t }
    closed := true }

/-- Fills in the domains again if they are in use. -/
def refresh (s : Symbols) : Symbols := if s.closed then s.close else s

/-- Every type but `object` starts as a subtype of `object`. -/
def declareType (name : String) (s : Symbols) : Nat × Symbols :=
  match s.typeId? name with
  | some t => (t, s)
  | none =>
    (s.types.length, refresh { s with types := s.types ++ [⟨name, [objectType], []⟩] })

def supertypes (s : Symbols) (t : Nat) : List Nat := s.types[t]?.elim [] (·.supertypes)

def addSupertype (sub sup : Nat) (s : Symbols) : Symbols :=
  if sub = sup ∨ sup ∈ s.supertypes sub then s
  else refresh { s with types := s.types.modify sub (TypeEntry.addSupertype sup) }

/-- The members of a union, ascending and once each. -/
def unionMembers (s : Symbols) (members : List Nat) : List Nat :=
  (List.range s.types.length).filter members.contains

def unionName (s : Symbols) (members : List Nat) : String :=
  "either~" ++ "~".intercalate (members.map s.typeName)

/-- The type that is above all members. A union of one type is that type. -/
def declareUnion (members : List Nat) (s : Symbols) : Nat × Symbols :=
  match s.unionMembers members with
  | [t] => (t, s)
  | ts =>
    match s.typeId? (s.unionName ts) with
    | some t => (t, s)
    | none =>
      let (t, s) := s.declareType (s.unionName ts)
      (t, ts.foldl (fun s member => s.addSupertype member t) s)

def knownType (s : Symbols) (name : String) : Except GroundingError Nat :=
  match s.typeId? name with
  | some t => .ok t
  | none => .error (.unknownType name)

def resolve (ref : Definition.TypeRef) (s : Symbols) : Except GroundingError (Nat × Symbols) :=
  match ref with
  | .exactly name => (s.knownType name).map (·, s)
  | .eitherOf names => do
    match ← names.mapM s.knownType with
    | [] => .ok (objectType, s)
    | members => .ok (s.declareUnion members)

def declareConstant (name : String) (type : Nat) (s : Symbols) :
    Except GroundingError (Nat × Symbols) :=
  match s.constants.declare? name type with
  | some (id, constants) =>
    .ok (id, if id < s.constants.size then s else refresh { s with constants })
  | none => .error (.conflict .constant name)

def declarePredicate (name : String) (signature : List Nat) (s : Symbols) :
    Except GroundingError (Nat × Symbols) :=
  match s.predicates.declare? name signature with
  | some (id, predicates) => .ok (id, { s with predicates })
  | none => .error (.conflict .predicate name)

def declareTask (name : String) (signature : TaskSignature) (s : Symbols) :
    Except GroundingError (Nat × Symbols) :=
  match s.tasks.declare? name signature with
  | some (id, tasks) => .ok (id, { s with tasks })
  | none => .error (.conflict .task name)

def isPrimitive (s : Symbols) (task : Nat) : Bool := (s.tasks.definition? task).any (·.primitive)

def constantName (s : Symbols) (c : Nat) : String := (s.constants.name? c).getD ""

def render (s : Symbols) (name : String) (args : List Nat) : String :=
  "(" ++ " ".intercalate (name :: args.map s.constantName) ++ ")"

def renderFact (s : Symbols) (f : Fact) : String :=
  s.render ((s.predicates.name? f.predicate).getD "") f.args

def renderTask (s : Symbols) (t : GroundTask) : String :=
  s.render ((s.tasks.name? t.symbol).getD "") t.args

end Symbols

end HtnPlanner
