import HtnPlanner.Definition.Basic
import HtnPlanner.Json.Basic

/-!
Writes definitions as JSON. Every field is written, also where it has its default.
-/

namespace HtnPlanner.Definition

def TypeRef.encode : TypeRef → Json
  | exactly n => .tagged "Exactly" (.ofString n)
  | eitherOf ns => .tagged "EitherOf" (.list .ofString ns)

def Typed.encode (t : Typed) : Json :=
  .record [("value", .ofString t.value), ("type", t.type.encode)]

def Term.encode : Term → Json
  | name n => .tagged "Name" (.ofString n)
  | var v => .tagged "Variable" (.ofString v)

def Atom.encode (value : α → Json) (a : Atom α) : Json :=
  .record [("name", .ofString a.name), ("values", .list value a.values)]

mutual

def Formula.encode : Formula → Json
  | .atom a => .tagged "Atom" (a.encode Term.encode)
  | .conj fs => .tagged "And" (.array (encodeAll fs))
  | .disj fs => .tagged "Or" (.array (encodeAll fs))
  | .neg f => .tagged "Not" f.encode
  | .imply f g => .tagged "Imply" (.array [f.encode, g.encode])
  | .equal a b => .tagged "Equality" (.array [a.encode, b.encode])

def Formula.encodeAll : List Formula → List Json
  | [] => []
  | f :: fs => f.encode :: encodeAll fs

end

@[simp] theorem Formula.encodeAll_eq_map (fs : List Formula) :
    Formula.encodeAll fs = fs.map Formula.encode := by
  induction fs with
  | nil => rfl
  | cons f fs ih => simp [Formula.encodeAll, ih]

def Effect.encode : Effect → Json
  | add a => .tagged "Add" (a.encode Term.encode)
  | delete a => .tagged "Delete" (a.encode Term.encode)

def Predicate.encode (p : Predicate) : Json :=
  .record [("name", .ofString p.name), ("variables", .list Typed.encode p.parameters)]

def Task.encode (t : Task) : Json :=
  .record [("name", .ofString t.name), ("parameters", .list Typed.encode t.parameters)]

def Action.encode (a : Action) : Json :=
  .record [("name", .ofString a.name), ("parameters", .list Typed.encode a.parameters),
    ("preconditions", .list Formula.encode a.preconditions),
    ("effects", .list Effect.encode a.effects)]

def Subtask.encode (s : Subtask) : Json :=
  .record [("id", s.label.elim .null .ofString), ("task", s.task.encode Term.encode)]

def Network.encode (n : Network) : Json :=
  .record [("subtasks", .list Subtask.encode n.subtasks),
    ("ordering", .list (fun p => .array [.ofString p.1, .ofString p.2]) n.ordering)]

def Method.encode (m : Method) : Json :=
  .record [("name", .ofString m.name), ("parameters", .list Typed.encode m.parameters),
    ("task", m.task.encode Term.encode), ("preconditions", .list Formula.encode m.preconditions),
    ("task_network", m.network.encode)]

def Domain.encode (d : Domain) : Json :=
  .record [("name", .ofString d.name), ("types", .list Typed.encode d.types),
    ("constants", .list Typed.encode d.constants),
    ("predicates", .list Predicate.encode d.predicates), ("tasks", .list Task.encode d.tasks),
    ("actions", .list Action.encode d.actions), ("methods", .list Method.encode d.methods)]

def Problem.encode (p : Problem) : Json :=
  .record [("name", .ofString p.name), ("domain", .ofString p.domain),
    ("objects", .list Typed.encode p.objects),
    ("init", .list (·.encode .ofString) p.init), ("htn", p.htn.encode),
    ("goal", .list Formula.encode p.goal)]

end HtnPlanner.Definition
