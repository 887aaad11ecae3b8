import HtnPlanner.CommandLine.Duration
import HtnPlanner.Search.Engine

namespace HtnPlanner.CommandLine

inductive Verbosity
  | silent
  | normal
  | verbose
  | debug
  deriving DecidableEq, Repr, Inhabited

inductive Key
  | output
  | engine
  | timeLimit
  | memoryLimit
  | verbosity
  | colour
  | groundOnly
  deriving DecidableEq, Repr, Inhabited

namespace Key

def takesValue : Key → Bool
  | colour | groundOnly => false
  | _ => true

def ofLong? : String → Option Key
  | "output" => some output
  | "engine" => some engine
  | "time-limit" => some timeLimit
  | "memory-limit" => some memoryLimit
  | "verbosity" => some verbosity
  | "colour" => some colour
  | "ground-only" => some groundOnly
  | _ => none

def ofShort? : Char → Option Key
  | 'o' => some output
  | 'e' => some engine
  | 't' => some timeLimit
  | 'm' => some memoryLimit
  | 'v' => some verbosity
  | 'c' => some colour
  | _ => none

end Key

/-- An argument as it is recognised: a path, or an option with its value, which is empty for a flag. -/
inductive Item
  | path (p : String)
  | setting (key : Key) (value : String)
  deriving DecidableEq, Repr, Inhabited

/-- The items of an argument, and the option whose value is still to come. -/
abbrev Reading := List Item × Option Key

/-- The letters of options after one dash. The rest of the argument, without a leading `=`, is the value
of the first that takes one. -/
def readShort : List Char → Option Reading
  | [] => some ([], none)
  | c :: cs => do
    let key ← Key.ofShort? c
    if key.takesValue then
      match cs with
      | [] => some ([], some key)
      | '=' :: value => some ([.setting key (String.ofList value)], none)
      | value => some ([.setting key (String.ofList value)], none)
    else
      (readShort cs).map fun r => (.setting key "" :: r.1, r.2)

def readLong (cs : List Char) : Option Reading := do
  let key ← Key.ofLong? (String.ofList (cs.takeWhile (· != '=')))
  match cs.dropWhile (· != '='), key.takesValue with
  | [], true => some ([], some key)
  | [], false => some ([.setting key ""], none)
  | _ :: value, true => some ([.setting key (String.ofList value)], none)
  | _ :: _, false => none

def read (argument : String) : Option Reading :=
  match argument.toList with
  | '-' :: '-' :: cs => readLong cs
  | '-' :: c :: cs => readShort (c :: cs)
  | _ => some ([.path argument], none)

/-- An argument with a dash at its start is not a value, unless it is the dash alone. -/
def isValue (argument : String) : Bool :=
  match argument.toList with
  | '-' :: _ :: _ => false
  | _ => true

/-- All arguments, the first of which may be the value of an option. After `--` there are only paths. -/
def items : Option Key → List String → Option (List Item)
  | none, [] => some []
  | some _, [] => none
  | some key, a :: rest =>
    if isValue a then (items none rest).map (.setting key a :: ·) else none
  | none, a :: rest =>
    if a = "--" then some (rest.map .path)
    else do
      let (here, pending) ← read a
      (items pending rest).map (here ++ ·)

/-- The value of an option, if it is there. No option may be given twice. -/
def setting? (l : List Item) (key : Key) : Option (Option String) :=
  match l.filterMap fun | .setting k v => if k = key then some v else none | .path _ => none with
  | [] => some none
  | [v] => some (some v)
  | _ => none

def parsed? (l : List Item) (key : Key) (f : String → Option α) : Option (Option α) := do
  match ← setting? l key with
  | none => some none
  | some v => (f v).map some

def isPath (p : String) : Bool := !p.isEmpty

def path? (p : String) : Option String := if isPath p then some p else none

def engine? : String → Option Engine
  | "dfs" => some .depthFirst
  | "bfs" => some .breadthFirst
  | _ => none

def verbosity? : String → Option Verbosity
  | "silent" => some .silent
  | "normal" => some .normal
  | "verbose" => some .verbose
  | "debug" => some .debug
  | _ => none

/-- Digits, after a plus sign or not, for a number of 64 bits. -/
def megabytes? (s : String) : Option Nat := do
  let digits := match s.toList with
    | '+' :: cs => cs
    | cs => cs
  if digits.isEmpty || !digits.all Char.isDigit then none
  else
    let n := digits.foldl (fun n c => n * 10 + (c.toNat - '0'.toNat)) 0
    if Duration.fits n then some n else none

structure Arguments where
  domain : Option String := none
  problem : Option String := none
  output : Option String := none
  engine : Engine := .depthFirst
  limits : Limits := {}
  verbosity : Verbosity := .normal
  colour : Bool := false
  groundOnly : Bool := false
  deriving DecidableEq, Repr, Inhabited

/-- Reads the arguments: at most two paths, and the options. -/
def Arguments.parse? (args : List String) : Option Arguments := do
  let l ← items none args
  let paths := l.filterMap fun | .path p => some p | .setting _ _ => none
  if paths.length > 2 || !paths.all isPath then none
  else
    let output ← parsed? l .output path?
    let engine ← parsed? l .engine engine?
    let time ← parsed? l .timeLimit Duration.parse?
    let memory ← parsed? l .memoryLimit megabytes?
    let verbosity ← parsed? l .verbosity verbosity?
    let colour ← setting? l .colour
    let groundOnly ← setting? l .groundOnly
    some {
      domain := paths[0]?, problem := paths[1]?, output
      engine := engine.getD .depthFirst
      limits := ⟨time.map Duration.total, memory⟩
      verbosity := verbosity.getD .normal
      colour := colour.isSome, groundOnly := groundOnly.isSome }

def usage : String := "\n".intercalate [
  "Usage: htn-planner [OPTIONS] [DOMAIN] [PROBLEM]",
  "Grounds an HTN domain and problem, given as JSON, and searches for a plan.",
  "-o, --output FILE         write the plan with its decompositions to a file",
  "-e, --engine ENGINE       dfs or bfs",
  "-t, --time-limit TIME     such as 30s or 5min",
  "-m, --memory-limit MB     a number of megabytes",
  "-v, --verbosity LEVEL     silent, normal, verbose or debug",
  "-c, --colour              colour the notes",
  "    --ground-only         print the size of the grounded problem instead"]

end HtnPlanner.CommandLine
