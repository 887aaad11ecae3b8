import HtnPlanner.CommandLine.Arguments
import HtnPlanner.CommandLine.Directory
import HtnPlanner.Definition.Decode
import HtnPlanner.Grounding
import HtnPlanner.Json.Reader
import HtnPlanner.Search.Validate

/-!
A run of the planner: what it prints, what it writes and how it exits.
-/

namespace HtnPlanner.CommandLine

structure Source where
  path : String
  text : Option String
  deriving DecidableEq, Repr, Inhabited

inductive LoadError
  | unreadable (path : String)
  | malformed (path : String)
  | grounding (e : GroundingError)
  deriving DecidableEq, Repr

def LoadError.message : LoadError → String
  | unreadable path => "I/O error on " ++ path
  | malformed path => "failed to parse " ++ path
  | grounding e => e.message

/-- What follows the last dot of the file's name. A name that only starts with a dot has none. -/
def extension? (path : String) : Option String :=
  match ((path.splitOn "/").getLastD "").splitOn "." with
  | [] | [_] => none
  | ["", _] => none
  | parts => parts.getLast?

/-- The definition in a file. Files named `.ron` are in another format, which is not read. -/
def loadDefinition (d : Decoder α) (source : Source) : Except LoadError α :=
  match source.text with
  | none => .error (.unreadable source.path)
  | some text =>
    if extension? source.path = some "ron" then .error (.malformed source.path)
    else
      match (Json.read? text).bind (d Definition.maxNesting) with
      | some a => .ok a
      | none => .error (.malformed source.path)

def load (domain problem : Option Source) : Except LoadError EncodedProblem := do
  let domain ← domain.mapM (loadDefinition Definition.Domain.decode)
  let problem ← problem.mapM (loadDefinition Definition.Problem.decode)
  (ground domain problem).mapError .grounding

structure Report where
  exitCode : Nat
  output : String := ""
  /-- For the reader of the log. -/
  notes : List String := []
  /-- A path and a text to write there once the output is printed. -/
  file : Option (String × String) := none
  deriving DecidableEq, Repr, Inhabited

def unlines (lines : List String) : String := String.join (lines.map (· ++ "\n"))

def rejected : Report where
  exitCode := 2
  notes := [usage]

def failed (e : LoadError) : Report where
  exitCode := 1
  notes := [e.message]

def sizes (p : EncodedProblem) : Report where
  exitCode := 0
  output := unlines [
    "Fluents: " ++ toString p.facts.length, "Tasks: " ++ toString p.tasks.length,
    "Actions: " ++ toString p.actions.length, "Methods: " ++ toString p.methods.length,
    "Totally ordered: " ++ toString p.isTotal]

def searchNote (s : Statistics) : String :=
  toString s.expanded ++ " nodes expanded, " ++ toString s.generated ++ " generated, "
    ++ toString s.duplicates ++ " found again"

def found (a : Arguments) (p : EncodedProblem) (plan : Plan) : Report where
  exitCode := 0
  output := unlines [
    "Plan found:", plan.text p, "Plan length: " ++ toString plan.actions.length]
  file := a.output.map (·, plan.decomposition p)

def notFound (reason : String) : Report where
  exitCode := 1
  output := unlines ["No plan found: " ++ reason]

/-- A plan is printed only if it is valid. -/
def conclude (a : Arguments) (p : EncodedProblem) : Outcome → Report
  | .success plan =>
    match p.validate plan with
    | .ok () => found a p plan
    | .error fault => { exitCode := 1, notes := ["plan is invalid: " ++ fault.message p] }
  | .unsolvable => notFound "ProvablyUnsolvable"
  | .exceeded .time => notFound "TimeLimitExceeded"
  | .exceeded .memory => notFound "MemoryLimitExceeded"

def unwritten (r : Report) (path : String) : Report :=
  { r with exitCode := 1, notes := r.notes ++ [(LoadError.unreadable path).message] }

namespace Directory

def source (d : Directory) (path : String) : Source := ⟨path, d.read? path⟩

/-- Writes the file of a report. The report changes if that cannot be done. -/
def finish (d : Directory) (r : Report) : Report × Directory :=
  match r.file with
  | none => (r, d)
  | some (path, text) =>
    match d.write? path text with
    | some d => (r, d)
    | none => (unwritten r path, d)

/-- A run in a directory. The usage that the search finds after so many expansions is given; there is
no answer if the search takes more than `fuel` steps. -/
def run (d : Directory) (usage : Nat → Usage) (fuel : Nat) (args : List String) :
    Option (Report × Directory) :=
  match Arguments.parse? args with
  | none => some (rejected, d)
  | some a =>
    match load (a.domain.map d.source) (a.problem.map d.source) with
    | .error e => some (failed e, d)
    | .ok p =>
      if a.groundOnly then some (sizes p, d)
      else do
        let (outcome, _) ← a.engine.search p (fun n => a.limits.exceeded (usage n)) fuel
        some (d.finish (conclude a p outcome))

end Directory

end HtnPlanner.CommandLine
