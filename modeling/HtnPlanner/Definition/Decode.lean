import HtnPlanner.Definition.Basic
import HtnPlanner.Json.Decoder

/-!
Reads definitions off JSON. A field that is not there has its default, if it has one.
-/

namespace HtnPlanner.Definition

open Decoder

def TypeRef.decode : Decoder TypeRef :=
  tagged fun
    | "Exactly", n, j => (string n j).map exactly
    | "EitherOf", n, j => (list string n j).map eitherOf
    | _, _, _ => none

def Typed.decode : Decoder Typed :=
  record ["value", "type"] fun
    | n, [value, type] => do
      some ⟨← required string n value, ← optional TypeRef.decode .object n type⟩
    | _, _ => none

def Term.decode : Decoder Term :=
  tagged fun
    | "Name", n, j => (string n j).map name
    | "Variable", n, j => (string n j).map var
    | _, _, _ => none

def Atom.decode {α : Type} (value : Decoder α) : Decoder (Atom α) :=
  record ["name", "values"] fun
    | n, [name, values] => do
      some ⟨← required string n name, ← optional (list value) [] n values⟩
    | _, _ => none

/-- A formula takes a level for its tag and one more for a list of members, so that the levels also
bound its nesting. -/
def Formula.decode : Decoder Formula
  | n + 1, .object [(some "Atom", j)] => (Atom.decode Term.decode n j).map atom
  | n + 2, .object [(some "And", .array fs)] => (fs.mapM (decode n)).map conj
  | n + 2, .object [(some "Or", .array fs)] => (fs.mapM (decode n)).map disj
  | n + 1, .object [(some "Not", f)] => (decode n f).map neg
  | n + 2, .object [(some "Imply", .array [f, g])] => do some (.imply (← decode n f) (← decode n g))
  | n + 1, .object [(some "Equality", j)] =>
    (pair Term.decode Term.decode n j).map fun p => equal p.1 p.2
  | _, _ => none

def Effect.decode : Decoder Effect :=
  tagged fun
    | "Add", n, j => (Atom.decode Term.decode n j).map add
    | "Delete", n, j => (Atom.decode Term.decode n j).map delete
    | _, _, _ => none

def Predicate.decode : Decoder Predicate :=
  record ["name", "variables"] fun
    | n, [name, parameters] => do
      some ⟨← required string n name, ← optional (list Typed.decode) [] n parameters⟩
    | _, _ => none

def Task.decode : Decoder Task :=
  record ["name", "parameters"] fun
    | n, [name, parameters] => do
      some ⟨← required string n name, ← optional (list Typed.decode) [] n parameters⟩
    | _, _ => none

def Action.decode : Decoder Action :=
  record ["name", "parameters", "preconditions", "effects"] fun
    | n, [name, parameters, preconditions, effects] => do
      some ⟨← required string n name, ← optional (list Typed.decode) [] n parameters,
        ← optional (list Formula.decode) [] n preconditions,
        ← optional (list Effect.decode) [] n effects⟩
    | _, _ => none

def Subtask.decode : Decoder Subtask :=
  record ["id", "task"] fun
    | n, [id, task] => do
      some ⟨← optional (nullable string) none n id, ← required (Atom.decode Term.decode) n task⟩
    | _, _ => none

def Network.decode : Decoder Network :=
  record ["subtasks", "ordering"] fun
    | n, [subtasks, ordering] => do
      some ⟨← optional (list Subtask.decode) [] n subtasks,
        ← optional (list (pair string string)) [] n ordering⟩
    | _, _ => none

def Method.decode : Decoder Method :=
  record ["name", "parameters", "task", "preconditions", "task_network"] fun
    | n, [name, parameters, task, preconditions, network] => do
      some ⟨← required string n name, ← optional (list Typed.decode) [] n parameters,
        ← required (Atom.decode Term.decode) n task,
        ← optional (list Formula.decode) [] n preconditions,
        ← optional Network.decode {} n network⟩
    | _, _ => none

def Domain.decode : Decoder Domain :=
  record ["name", "types", "constants", "predicates", "tasks", "actions", "methods"] fun
    | n, [name, types, constants, predicates, tasks, actions, methods] => do
      some ⟨← required string n name, ← optional (list Typed.decode) [⟨"object", .object⟩] n types,
        ← optional (list Typed.decode) [] n constants,
        ← optional (list Predicate.decode) [] n predicates,
        ← optional (list Task.decode) [] n tasks, ← optional (list Action.decode) [] n actions,
        ← optional (list Method.decode) [] n methods⟩
    | _, _ => none

def Problem.decode : Decoder Problem :=
  record ["name", "domain", "objects", "init", "htn", "goal"] fun
    | n, [name, domain, objects, init, htn, goal] => do
      some ⟨← required string n name, ← required string n domain,
        ← optional (list Typed.decode) [] n objects,
        ← optional (list (Atom.decode string)) [] n init, ← optional Network.decode {} n htn,
        ← optional (list Formula.decode) [] n goal⟩
    | _, _ => none

/-- A document of this many nested arrays and objects is still read. -/
def maxNesting : Nat := 127

end HtnPlanner.Definition
