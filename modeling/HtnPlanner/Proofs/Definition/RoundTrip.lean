import HtnPlanner.Definition.Decode
import HtnPlanner.Definition.Encode
import HtnPlanner.Proofs.Json.Spelling

/-!
Definitions are read back from every document that spells them, and to write a definition is one way to spell it.
-/

namespace HtnPlanner.Definition

open Decoder Spelling

/-! ### Types and terms -/

def TypeRef.spelling : Spelling TypeRef
  | exactly n => tagged "Exactly" string n
  | eitherOf ns => tagged "EitherOf" (list string) ns

theorem TypeRef.reads : TypeRef.decode.Reads TypeRef.spelling := by
  intro t j hj
  cases t with
  | exactly name =>
      obtain ⟨c, rfl, hc⟩ := hj
      exact .tagged ((reads_string _ _ hc).map exactly)
  | eitherOf names =>
      obtain ⟨c, rfl, hc⟩ := hj
      exact .tagged ((reads_string.list _ _ hc).map eitherOf)

theorem TypeRef.spelling_encode (t : TypeRef) : spelling t t.encode := by
  cases t with
  | exactly name => exact ⟨_, rfl, rfl⟩
  | eitherOf names => exact ⟨_, rfl, list_map fun _ _ => rfl⟩

def Typed.spelling : Spelling Typed := fun t j => ∃ value type, HasSlots ["value", "type"] [value, type] j ∧
  required string t.value value ∧ optional TypeRef.spelling .object t.type type

theorem Typed.reads : Typed.decode.Reads Typed.spelling := by
  rintro t j ⟨value, type, hj, hvalue, htype⟩
  refine .record (by decide) hj fun n => ?_
  simp [reads_string.required hvalue, TypeRef.reads.optional htype, ite_and]

theorem Typed.spelling_encode (t : Typed) : spelling t t.encode :=
  ⟨_, _, hasSlots_record [("value", _), ("type", _)], required_some rfl, optional_some t.type.spelling_encode⟩

def Term.spelling : Spelling Term
  | name n => tagged "Name" string n
  | var v => tagged "Variable" string v

theorem Term.reads : Term.decode.Reads Term.spelling := by
  intro t j hj
  cases t with
  | name n =>
      obtain ⟨c, rfl, hc⟩ := hj
      exact .tagged ((reads_string _ _ hc).map name)
  | var v =>
      obtain ⟨c, rfl, hc⟩ := hj
      exact .tagged ((reads_string _ _ hc).map var)

theorem Term.spelling_encode (t : Term) : spelling t t.encode := by
  cases t <;> exact ⟨_, rfl, rfl⟩

def Atom.spelling {α : Type} (S : Spelling α) : Spelling (Atom α) := fun a j =>
  ∃ name values, HasSlots ["name", "values"] [name, values] j ∧ required string a.name name ∧
    optional (list S) [] a.values values

theorem Atom.reads {α : Type} {value : Decoder α} {S : Spelling α} (h : value.Reads S) :
    (Atom.decode value).Reads (Atom.spelling S) := by
  rintro a j ⟨name, values, hj, hname, hvalues⟩
  refine .record (by decide) hj fun n => ?_
  simp [reads_string.required hname, h.list.optional hvalues, ite_and]

theorem Atom.spelling_encode {α : Type} {S : Spelling α} {write : α → Json} (h : ∀ v, S v (write v)) (a : Atom α) :
    spelling S a (a.encode write) :=
  ⟨_, _, hasSlots_record [("name", _), ("values", _)], required_some rfl, optional_some (list_map fun v _ => h v)⟩

/-! ### Formulas -/

namespace Formula

mutual

def spelling : Formula → Json → Prop
  | .atom a, j => tagged "Atom" (Atom.spelling Term.spelling) a j
  | .conj fs, j => ∃ items, j = .tagged "And" (.array items) ∧ spellingAll fs items
  | .disj fs, j => ∃ items, j = .tagged "Or" (.array items) ∧ spellingAll fs items
  | .neg f, j => ∃ content, j = .tagged "Not" content ∧ spelling f content
  | .imply f g, j => ∃ a b, j = .tagged "Imply" (.array [a, b]) ∧ spelling f a ∧ spelling g b
  | .equal a b, j => tagged "Equality" (pair Term.spelling Term.spelling) (a, b) j

def spellingAll : List Formula → List Json → Prop
  | [], items => items = []
  | f :: fs, items => ∃ j js, items = j :: js ∧ spelling f j ∧ spellingAll fs js

end

theorem spellingAll_iff {fs : List Formula} {items : List Json} :
    spellingAll fs items ↔ List.Forall₂ spelling fs items := by
  induction fs generalizing items with
  | nil => rw [spellingAll, List.forall₂_nil_left_iff]
  | cons f fs ih =>
      rw [spellingAll, List.forall₂_cons_left_iff]
      simp only [ih]
      grind

/-- What is read below the tag of a formula. -/
def content : String → Decoder Formula
  | "Atom", n, j => (Atom.decode Term.decode n j).map atom
  | "And", n, j => (list decode n j).map conj
  | "Or", n, j => (list decode n j).map disj
  | "Not", n, j => (decode n j).map neg
  | "Imply", n, j => (pair decode decode n j).map fun p => imply p.1 p.2
  | "Equality", n, j => (pair Term.decode Term.decode n j).map fun p => equal p.1 p.2
  | _, _, _ => none

theorem decode_eq_tagged : decode = Decoder.tagged content := by
  funext n j
  fun_cases decode n j with
  | case5 n f g =>
      change _ = (decode n f >>= fun f => decode n g >>= fun g => some (f, g)).map _
      cases decode n f with
      | none => rfl
      | some f => cases decode n g <;> rfl
  | case7 n j hatom hconj hdisj hneg himply hequal =>
      -- a tag that is known, with content that is not an array of the right length, is refused below the tag
      symm
      rw [Decoder.tagged.eq_def]
      split
      · rw [content.eq_def]
        split
        · exact (hatom _ _ rfl rfl).elim
        · rw [Decoder.list.eq_def]
          split
          · exact (hconj _ _ rfl rfl).elim
          · rfl
        · rw [Decoder.list.eq_def]
          split
          · exact (hdisj _ _ rfl rfl).elim
          · rfl
        · exact (hneg _ _ rfl rfl).elim
        · rw [Decoder.pair.eq_def]
          split
          · exact (himply _ _ _ rfl rfl).elim
          · rfl
        · exact (hequal _ _ rfl rfl).elim
        · rfl
      · rfl
  | _ => rfl

theorem gives_tagged {tag : String} {j : Json} {f : Formula} (h : (content tag).Gives j f) :
    decode.Gives (.tagged tag j) f := by
  rw [decode_eq_tagged]
  exact .tagged h

theorem gives_all {fs : List Formula} {items : List Json} (h : ∀ f ∈ fs, ∀ j, spelling f j → decode.Gives j f)
    (hitems : spellingAll fs items) : (list decode).Gives (.array items) fs := by
  have hboth : List.Forall₂ (fun f j => (∀ j, spelling f j → decode.Gives j f) ∧ spelling f j) fs items :=
    (List.forall₂_and_left fs items).mpr ⟨h, spellingAll_iff.mp hitems⟩
  exact .list (hboth.imp fun f j hf => hf.1 j hf.2)

theorem reads : decode.Reads spelling := by
  intro f
  induction f using induct with
  | atom a =>
      rintro j ⟨c, rfl, hc⟩
      exact gives_tagged ((Atom.reads Term.reads _ _ hc).map atom)
  | conj fs ih =>
      intro j hj
      rw [spelling] at hj
      obtain ⟨items, rfl, hitems⟩ := hj
      exact gives_tagged ((gives_all ih hitems).map conj)
  | disj fs ih =>
      intro j hj
      rw [spelling] at hj
      obtain ⟨items, rfl, hitems⟩ := hj
      exact gives_tagged ((gives_all ih hitems).map disj)
  | neg f ih =>
      intro j hj
      rw [spelling] at hj
      obtain ⟨c, rfl, hc⟩ := hj
      exact gives_tagged ((ih c hc).map neg)
  | imply f g ihf ihg =>
      intro j hj
      rw [spelling] at hj
      obtain ⟨a, b, rfl, ha, hb⟩ := hj
      exact gives_tagged (((ihf a ha).pair (ihg b hb)).map fun p => imply p.1 p.2)
  | equal a b =>
      rintro j ⟨c, rfl, hc⟩
      exact gives_tagged ((Term.reads.pair Term.reads _ _ hc).map fun p => equal p.1 p.2)

theorem spelling_encode (f : Formula) : spelling f f.encode := by
  induction f using induct with
  | atom a => exact ⟨_, rfl, a.spelling_encode Term.spelling_encode⟩
  | conj fs ih =>
      rw [spelling, encode, encodeAll_eq_map]
      exact ⟨_, rfl, spellingAll_iff.mpr (List.forall₂_map_right_iff.mpr (List.forall₂_same.mpr ih))⟩
  | disj fs ih =>
      rw [spelling, encode, encodeAll_eq_map]
      exact ⟨_, rfl, spellingAll_iff.mpr (List.forall₂_map_right_iff.mpr (List.forall₂_same.mpr ih))⟩
  | neg f ih =>
      rw [spelling, encode]
      exact ⟨_, rfl, ih⟩
  | imply f g ihf ihg =>
      rw [spelling, encode]
      exact ⟨_, _, rfl, ihf, ihg⟩
  | equal a b => exact ⟨_, rfl, _, _, rfl, a.spelling_encode, b.spelling_encode⟩

end Formula

/-! ### Declarations -/

def Effect.spelling : Spelling Effect
  | add a => tagged "Add" (Atom.spelling Term.spelling) a
  | delete a => tagged "Delete" (Atom.spelling Term.spelling) a

theorem Effect.reads : Effect.decode.Reads Effect.spelling := by
  intro e j hj
  cases e with
  | add a =>
      obtain ⟨c, rfl, hc⟩ := hj
      exact .tagged ((Atom.reads Term.reads _ _ hc).map add)
  | delete a =>
      obtain ⟨c, rfl, hc⟩ := hj
      exact .tagged ((Atom.reads Term.reads _ _ hc).map delete)

theorem Effect.spelling_encode (e : Effect) : spelling e e.encode := by
  cases e with
  | add a => exact ⟨_, rfl, a.spelling_encode Term.spelling_encode⟩
  | delete a => exact ⟨_, rfl, a.spelling_encode Term.spelling_encode⟩

def Predicate.spelling : Spelling Predicate := fun p j =>
  ∃ name parameters, HasSlots ["name", "variables"] [name, parameters] j ∧ required string p.name name ∧
    optional (list Typed.spelling) [] p.parameters parameters

theorem Predicate.reads : Predicate.decode.Reads Predicate.spelling := by
  rintro p j ⟨name, parameters, hj, hname, hparameters⟩
  refine .record (by decide) hj fun n => ?_
  simp [reads_string.required hname, Typed.reads.list.optional hparameters, ite_and]

theorem Predicate.spelling_encode (p : Predicate) : spelling p p.encode :=
  ⟨_, _, hasSlots_record [("name", _), ("variables", _)], required_some rfl,
    optional_some (list_map fun t _ => t.spelling_encode)⟩

def Task.spelling : Spelling Task := fun t j =>
  ∃ name parameters, HasSlots ["name", "parameters"] [name, parameters] j ∧ required string t.name name ∧
    optional (list Typed.spelling) [] t.parameters parameters

theorem Task.reads : Task.decode.Reads Task.spelling := by
  rintro t j ⟨name, parameters, hj, hname, hparameters⟩
  refine .record (by decide) hj fun n => ?_
  simp [reads_string.required hname, Typed.reads.list.optional hparameters, ite_and]

theorem Task.spelling_encode (t : Task) : spelling t t.encode :=
  ⟨_, _, hasSlots_record [("name", _), ("parameters", _)], required_some rfl,
    optional_some (list_map fun t _ => t.spelling_encode)⟩

def Action.spelling : Spelling Action := fun a j =>
  ∃ name parameters preconditions effects,
    HasSlots ["name", "parameters", "preconditions", "effects"] [name, parameters, preconditions, effects] j ∧
    required string a.name name ∧ optional (list Typed.spelling) [] a.parameters parameters ∧
    optional (list Formula.spelling) [] a.preconditions preconditions ∧
    optional (list Effect.spelling) [] a.effects effects

theorem Action.reads : Action.decode.Reads Action.spelling := by
  rintro a j ⟨name, parameters, preconditions, effects, hj, hname, hparameters, hpreconditions, heffects⟩
  refine .record (by decide) hj fun n => ?_
  simp [reads_string.required hname, Typed.reads.list.optional hparameters,
    Formula.reads.list.optional hpreconditions, Effect.reads.list.optional heffects, ite_and]

theorem Action.spelling_encode (a : Action) : spelling a a.encode :=
  ⟨_, _, _, _, hasSlots_record [("name", _), ("parameters", _), ("preconditions", _), ("effects", _)],
    required_some rfl, optional_some (list_map fun t _ => t.spelling_encode),
    optional_some (list_map fun f _ => f.spelling_encode), optional_some (list_map fun e _ => e.spelling_encode)⟩

/-! ### Task networks -/

def Subtask.spelling : Spelling Subtask := fun s j =>
  ∃ id task, HasSlots ["id", "task"] [id, task] j ∧ optional (nullable string) none s.label id ∧
    required (Atom.spelling Term.spelling) s.task task

theorem Subtask.reads : Subtask.decode.Reads Subtask.spelling := by
  rintro s j ⟨id, task, hj, hid, htask⟩
  have hlabel : (Decoder.nullable Decoder.string).Reads (nullable string) := reads_string.nullable fun _ h => nomatch h
  refine .record (by decide) hj fun n => ?_
  simp [hlabel.optional hid, (Atom.reads Term.reads).required htask, ite_and]

theorem Subtask.spelling_encode (s : Subtask) : spelling s s.encode := by
  have hlabel : nullable string s.label (s.label.elim .null .ofString) := by cases s.label <;> rfl
  exact ⟨_, _, hasSlots_record [("id", _), ("task", _)], optional_some hlabel,
    required_some (s.task.spelling_encode Term.spelling_encode)⟩

def Network.spelling : Spelling Network := fun w j =>
  ∃ subtasks ordering, HasSlots ["subtasks", "ordering"] [subtasks, ordering] j ∧
    optional (list Subtask.spelling) [] w.subtasks subtasks ∧
    optional (list (pair string string)) [] w.ordering ordering

theorem Network.reads : Network.decode.Reads Network.spelling := by
  rintro w j ⟨subtasks, ordering, hj, hsubtasks, hordering⟩
  refine .record (by decide) hj fun n => ?_
  simp [Subtask.reads.list.optional hsubtasks, (reads_string.pair reads_string).list.optional hordering, ite_and]

theorem Network.spelling_encode (w : Network) : spelling w w.encode :=
  ⟨_, _, hasSlots_record [("subtasks", _), ("ordering", _)], optional_some (list_map fun s _ => s.spelling_encode),
    optional_some (list_map fun _ _ => ⟨_, _, rfl, rfl, rfl⟩)⟩

def Method.spelling : Spelling Method := fun m j =>
  ∃ name parameters task preconditions network,
    HasSlots ["name", "parameters", "task", "preconditions", "task_network"]
      [name, parameters, task, preconditions, network] j ∧
    required string m.name name ∧ optional (list Typed.spelling) [] m.parameters parameters ∧
    required (Atom.spelling Term.spelling) m.task task ∧
    optional (list Formula.spelling) [] m.preconditions preconditions ∧
    optional Network.spelling {} m.network network

theorem Method.reads : Method.decode.Reads Method.spelling := by
  rintro m j ⟨name, parameters, task, preconditions, network, hj, hname, hparameters, htask, hpreconditions,
    hnetwork⟩
  refine .record (by decide) hj fun n => ?_
  simp [reads_string.required hname, Typed.reads.list.optional hparameters, (Atom.reads Term.reads).required htask,
    Formula.reads.list.optional hpreconditions, Network.reads.optional hnetwork, ite_and]

theorem Method.spelling_encode (m : Method) : spelling m m.encode :=
  ⟨_, _, _, _, _,
    hasSlots_record [("name", _), ("parameters", _), ("task", _), ("preconditions", _), ("task_network", _)],
    required_some rfl, optional_some (list_map fun t _ => t.spelling_encode),
    required_some (m.task.spelling_encode Term.spelling_encode), optional_some (list_map fun f _ => f.spelling_encode),
    optional_some m.network.spelling_encode⟩

/-! ### Domains and problems -/

def Domain.spelling : Spelling Domain := fun d j =>
  ∃ name types constants predicates tasks actions methods,
    HasSlots ["name", "types", "constants", "predicates", "tasks", "actions", "methods"]
      [name, types, constants, predicates, tasks, actions, methods] j ∧
    required string d.name name ∧ optional (list Typed.spelling) [⟨"object", .object⟩] d.types types ∧
    optional (list Typed.spelling) [] d.constants constants ∧
    optional (list Predicate.spelling) [] d.predicates predicates ∧
    optional (list Task.spelling) [] d.tasks tasks ∧ optional (list Action.spelling) [] d.actions actions ∧
    optional (list Method.spelling) [] d.methods methods

theorem Domain.reads : Domain.decode.Reads Domain.spelling := by
  rintro d j ⟨name, types, constants, predicates, tasks, actions, methods, hj, hname, htypes, hconstants, hpredicates,
    htasks, hactions, hmethods⟩
  refine .record (by decide) hj fun n => ?_
  simp [reads_string.required hname, Typed.reads.list.optional htypes, Typed.reads.list.optional hconstants,
    Predicate.reads.list.optional hpredicates, Task.reads.list.optional htasks,
    Action.reads.list.optional hactions, Method.reads.list.optional hmethods, ite_and]

theorem Domain.spelling_encode (d : Domain) : spelling d d.encode :=
  ⟨_, _, _, _, _, _, _,
    hasSlots_record [("name", _), ("types", _), ("constants", _), ("predicates", _), ("tasks", _), ("actions", _),
      ("methods", _)],
    required_some rfl, optional_some (list_map fun t _ => t.spelling_encode),
    optional_some (list_map fun t _ => t.spelling_encode), optional_some (list_map fun p _ => p.spelling_encode),
    optional_some (list_map fun t _ => t.spelling_encode), optional_some (list_map fun a _ => a.spelling_encode),
    optional_some (list_map fun m _ => m.spelling_encode)⟩

def Problem.spelling : Spelling Problem := fun p j =>
  ∃ name domain objects init htn goal,
    HasSlots ["name", "domain", "objects", "init", "htn", "goal"] [name, domain, objects, init, htn, goal] j ∧
    required string p.name name ∧ required string p.domain domain ∧
    optional (list Typed.spelling) [] p.objects objects ∧ optional (list (Atom.spelling string)) [] p.init init ∧
    optional Network.spelling {} p.htn htn ∧ optional (list Formula.spelling) [] p.goal goal

theorem Problem.reads : Problem.decode.Reads Problem.spelling := by
  rintro p j ⟨name, domain, objects, init, htn, goal, hj, hname, hdomain, hobjects, hinit, hhtn, hgoal⟩
  refine .record (by decide) hj fun n => ?_
  simp [reads_string.required hname, reads_string.required hdomain, Typed.reads.list.optional hobjects,
    (Atom.reads reads_string).list.optional hinit, Network.reads.optional hhtn, Formula.reads.list.optional hgoal,
    ite_and]

theorem Problem.spelling_encode (p : Problem) : spelling p p.encode :=
  ⟨_, _, _, _, _, _,
    hasSlots_record [("name", _), ("domain", _), ("objects", _), ("init", _), ("htn", _), ("goal", _)],
    required_some rfl, required_some rfl, optional_some (list_map fun t _ => t.spelling_encode),
    optional_some (list_map fun a _ => a.spelling_encode string_ofString), optional_some p.htn.spelling_encode,
    optional_some (list_map fun f _ => f.spelling_encode)⟩

/-- What is written of a domain or a problem is read back, and so is every other spelling, unless it is nested too
deep. -/
theorem definitions_read_back :
    (∀ d : Domain, Domain.decode maxNesting d.encode = if d.encode.depth ≤ maxNesting then some d else none) ∧
    (∀ p : Problem, Problem.decode maxNesting p.encode = if p.encode.depth ≤ maxNesting then some p else none) ∧
    (∀ (d : Domain) (j : Json), Domain.spelling d j →
      Domain.decode maxNesting j = if j.depth ≤ maxNesting then some d else none) ∧
    ∀ (p : Problem) (j : Json), Problem.spelling p j →
      Problem.decode maxNesting j = if j.depth ≤ maxNesting then some p else none := by
  refine ⟨fun d => ?_, fun p => ?_, fun d j hj => ?_, fun p j hj => ?_⟩
  · exact Domain.reads d d.encode d.spelling_encode maxNesting
  · exact Problem.reads p p.encode p.spelling_encode maxNesting
  · exact Domain.reads d j hj maxNesting
  · exact Problem.reads p j hj maxNesting

/-- A domain given as an array that leaves out all after the types, in which one type leaves out its supertype and the
other gives its fields in the other order. -/
theorem definitions_read_back_array :
    Domain.decode maxNesting (.array [.ofString "lamps", .array [.object [(some "value", .ofString "object")],
      .object [(some "type", .tagged "EitherOf" (.array [])), (some "value", .ofString "lamp")]]]) =
    some { name := "lamps", types := [⟨"object", .object⟩, ⟨"lamp", .eitherOf []⟩] } := by
  refine (definitions_read_back.2.2.1 _ _ ?_).trans (if_pos (by decide))
  have hobject : Typed.spelling ⟨"object", .object⟩ (.object [(some "value", .ofString "object")]) :=
    ⟨_, none, .object rfl (.refl _), required_some rfl, .inl ⟨rfl, rfl⟩⟩
  have hlamp : Typed.spelling ⟨"lamp", .eitherOf []⟩
      (.object [(some "type", .tagged "EitherOf" (.array [])), (some "value", .ofString "lamp")]) :=
    ⟨_, _, .object rfl (.swap _ _ _), required_some rfl, optional_some ⟨_, rfl, _, rfl, .nil⟩⟩
  exact ⟨_, _, _, _, _, _, _, @HasSlots.array _ [_, _] 5 rfl, required_some rfl,
    optional_some ⟨_, rfl, .cons hobject (.cons hlamp .nil)⟩, .inl ⟨rfl, rfl⟩, .inl ⟨rfl, rfl⟩, .inl ⟨rfl, rfl⟩,
    .inl ⟨rfl, rfl⟩, .inl ⟨rfl, rfl⟩⟩

/-- A problem whose goal is negated so many times that its document is nested once more than is read. -/
def deepProblem : Problem := { name := "p", domain := "d", goal := [Nat.repeat .neg 124 (.conj [])] }

theorem decode_deepProblem : Problem.decode maxNesting deepProblem.encode = none := by
  decide +kernel

end HtnPlanner.Definition
