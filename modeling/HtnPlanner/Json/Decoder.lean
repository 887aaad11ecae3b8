import HtnPlanner.Json.Basic

namespace HtnPlanner

/-- Reads a value off a document, in which so many arrays and objects may still be opened one inside
the other. -/
abbrev Decoder (α : Type) := Nat → Json → Option α

namespace Decoder

variable {α β : Type}

def string : Decoder String
  | _, .text t => t
  | _, _ => none

def nullable (d : Decoder α) : Decoder (Option α)
  | _, .null => some none
  | levels, j => (d levels j).map some

def list (d : Decoder α) : Decoder (List α)
  | levels + 1, .array items => items.mapM (d levels)
  | _, _ => none

def pair (d : Decoder α) (e : Decoder β) : Decoder (α × β)
  | levels + 1, .array [a, b] => do some (← d levels a, ← e levels b)
  | _, _ => none

def tagged (content : String → Nat → Json → Option α) : Decoder α
  | levels + 1, .object [(some tag, j)] => content tag levels j
  | _, _ => none

/-- The contents of the field, if it is there, and `none` if it is repeated. -/
def field? (fields : List (Option String × Json)) (name : String) : Option (Option Json) :=
  match fields.filter (·.1 == some name) with
  | [] => some none
  | [f] => some (some f.2)
  | _ => none

/-- The fields of the given names, in that order. They come as an object, where other names do not
matter, or as an array, which may stop early. -/
def slots? (names : List String) : Json → Option (List (Option Json))
  | .object fields => if fields.all (·.1.isSome) then names.mapM (field? fields) else none
  | .array items =>
    if items.length ≤ names.length then
      some (items.map some ++ List.replicate (names.length - items.length) none)
    else
      none
  | _ => none

def record (names : List String) (build : Nat → List (Option Json) → Option α) : Decoder α
  | levels + 1, j => (slots? names j).bind (build levels)
  | 0, _ => none

def required (d : Decoder α) (levels : Nat) (slot : Option Json) : Option α := slot.bind (d levels)

def optional (d : Decoder α) (default : α) (levels : Nat) (slot : Option Json) : Option α :=
  match slot with
  | some j => d levels j
  | none => some default

end Decoder

end HtnPlanner
