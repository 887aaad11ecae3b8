import HtnPlanner.Proofs.Lookup.Registry
import HtnPlanner.Proofs.Symbols.History
import HtnPlanner.Proofs.Symbols.Walks
import Mathlib.Data.List.Dedup
import Mathlib.Data.List.Sort

/-!
The symbols in the lists and maps that they are kept in, each by itself, and the operations on them step by step. What
is done is done: an error takes nothing back, and where an index is of nothing there is no result at all.
-/

namespace HtnPlanner

open Symbols (objectType Change)

/-- The supertypes and the domain of a type are at its place, and so is what a name was declared as. -/
structure SymbolTables where
  types : Registry String String := {}
  supertypes : List (List Nat) := []
  domains : Lookup.Domains := []
  closed : Bool := false
  constants : Registry String String := {}
  constantTypes : List Nat := []
  predicates : Registry String String := {}
  signatures : List (List Nat) := []
  tasks : Registry String String := {}
  taskSignatures : List (List Nat) := []
  primitiveTasks : List Bool := []

namespace SymbolTables

abbrev InPlace := ExceptT GroundingError (StateT SymbolTables Option)

def unionName? (t : SymbolTables) (members : List Nat) : Option String :=
  (members.mapM (t.types.members[·]?)).map fun names => "either~" ++ "~".intercalate names

/-- Ascending, each once. -/
def sortedMembers (members : List Nat) : List Nat := (members.insertionSort (· ≤ ·)).dedup

namespace InPlace

def find {α : Type} (f? : SymbolTables → Option α) : InPlace α := fun t => (f? t).map fun a => (.ok a, t)

def close : InPlace Unit := do
  modify fun t => { t with domains := t.domains.map fun _ => ∅ }
  let domains ← find fun t => Lookup.fillAll t.supertypes t.constantTypes t.domains
  modify fun t => { t with domains }
  modify fun t => { t with closed := true }

def refresh : InPlace Unit := do if (← get).closed then close

def declareType (name : String) : InPlace Nat := do
  match (← get).types.numbers[name]? with
  | some i => return i
  | none =>
    let i := (← get).types.members.length
    modify fun t => { t with types := t.types.push name }
    modify fun t => { t with types := t.types.assign name i }
    modify fun t => { t with supertypes := t.supertypes ++ [if i = 0 then [] else [objectType]] }
    modify fun t => { t with domains := t.domains ++ [∅] }
    refresh
    return i

def addSupertype (sub sup : Nat) : InPlace Unit := do
  unless sub = sup do
    let above ← find (·.supertypes[sub]?)
    unless sup ∈ above do
      modify fun t => { t with supertypes := t.supertypes.set sub (above ++ [sup]) }
      refresh

/-- The type that has the name of a union of the types `ts`. -/
def declareAbove (ts : List Nat) : InPlace Nat := do
  let name ← find (·.unionName? ts)
  match (← get).types.numbers[name]? with
  | some i => return i
  | none =>
    let i ← declareType name
    ts.forM (addSupertype · i)
    return i

def declareUnion (members : List Nat) : InPlace Nat :=
  match sortedMembers members with
  | [t] => return t
  | ts => declareAbove ts

def knownType (name : String) : InPlace Nat := do
  match (← get).types.numbers[name]? with
  | some i => return i
  | none => throw (.unknownType name)

def resolve : Definition.TypeRef → InPlace Nat
  | .exactly name => knownType name
  | .eitherOf names => do
    match ← names.mapM knownType with
    | [] => return objectType
    | members => declareUnion members

end InPlace

/-- Names that are declared as something: where the names are, whether one was declared as `d`, and how that is
stored. -/
structure Family (α : Type) where
  kind : Kind
  names : SymbolTables → Registry String String
  setNames : Registry String String → SymbolTables → SymbolTables
  agrees? : SymbolTables → Nat → α → Option Bool
  store : α → InPlace Unit

namespace Family

def constants : Family Nat where
  kind := .constant
  names := (·.constants)
  setNames constants t := { t with constants }
  agrees? t i type := t.constantTypes[i]?.map (decide <| · = type)
  store type := do
    modify fun t => { t with constantTypes := t.constantTypes ++ [type] }
    InPlace.refresh

def predicates : Family (List Nat) where
  kind := .predicate
  names := (·.predicates)
  setNames predicates t := { t with predicates }
  agrees? t i signature := t.signatures[i]?.map (decide <| · = signature)
  store signature := modify fun t => { t with signatures := t.signatures ++ [signature] }

/-- Whether a task is primitive is only looked at if its signature agrees. -/
def tasks : Family TaskSignature where
  kind := .task
  names := (·.tasks)
  setNames tasks t := { t with tasks }
  agrees? t i signature := do
    if (← t.taskSignatures[i]?) ≠ signature.parameters then some false
    else t.primitiveTasks[i]?.map (decide <| · = signature.primitive)
  store signature := do
    modify fun t => { t with taskSignatures := t.taskSignatures ++ [signature.parameters] }
    modify fun t => { t with primitiveTasks := t.primitiveTasks ++ [signature.primitive] }

variable {α : Type} (f : Family α)

/-- The number of the name, which is entered if it is new. -/
def declare (name : String) (d : α) : InPlace Nat := do
  match (f.names (← get)).numbers[name]? with
  | some i =>
    if ← InPlace.find (f.agrees? · i d) then return i
    throw (.conflict f.kind name)
  | none =>
    let i := (f.names (← get)).members.length
    modify fun t => f.setNames ((f.names t).push name) t
    modify fun t => f.setNames ((f.names t).assign name i) t
    f.store d
    return i

end Family

/-- An operation, with the number that it returns if it is one that does. -/
def perform : Change → InPlace (Option Nat)
  | .declareType name => some <$> InPlace.declareType name
  | .addSupertype sub sup => do InPlace.addSupertype sub sup; return none
  | .declareUnion members => some <$> InPlace.declareUnion members
  | .resolve ref => some <$> InPlace.resolve ref
  | .declareConstant name type => some <$> Family.constants.declare name type
  | .declarePredicate name signature => some <$> Family.predicates.declare name signature
  | .declareTask name signature => some <$> Family.tasks.declare name signature
  | .close => do InPlace.close; return none

def performAll (t : SymbolTables) (changes : List Change) : Option SymbolTables :=
  changes.foldlM (fun t c => (perform c t).map (·.2)) t

/-- The tables that `object` was entered in. -/
def start : SymbolTables := ((InPlace.declareType "object" {}).map (·.2)).getD {}

/-- The types that an operation mentions by their numbers. -/
def mentioned : Change → List Nat
  | .addSupertype sub sup => [sub, sup]
  | .declareUnion members => members
  | .declareConstant _ type => [type]
  | .declarePredicate _ signature => signature
  | .declareTask _ signature => signature.parameters
  | .declareType _ | .resolve _ | .close => []

def Admits (t : SymbolTables) (c : Change) : Prop := ∀ i ∈ mentioned c, i < t.types.members.length

/-- Each operation mentions types that are there by then. -/
def AdmitsAll : SymbolTables → List Change → Prop
  | _, [] => True
  | t, c :: changes => t.Admits c ∧ ∀ r t', perform c t = some (r, t') → t'.AdmitsAll changes

end SymbolTables

end HtnPlanner
