import HtnPlanner.CommandLine.Run

/-!
The command line. The search is taken step by step, with the clock and the memory read in between.
-/

namespace HtnPlanner.CommandLine

/-- When the search began, and the most memory it was seen to take. -/
structure Meter where
  start : Nat
  sampled : Option Nat := none
  peak : Nat := 0

namespace Meter

/-- The resident memory in megabytes. It counts as none where the system does not tell. -/
def residentMemory : IO Nat := do
  try
    let text ← IO.FS.readFile "/proc/self/statm"
    return ((text.splitOn " ")[1]?.bind String.toNat?).getD 0 * 4096 / 1048576
  catch _ =>
    return 0

/-- Reads the clock, and the memory at most once in a second. -/
def read (m : Meter) : IO (Usage × Meter) := do
  let now ← IO.monoNanosNow
  if m.sampled.any (now < · + 1000000000) then
    return (⟨now - m.start, m.peak⟩, m)
  let m := { m with sampled := some now, peak := max m.peak (← residentMemory) }
  return (⟨now - m.start, m.peak⟩, m)

end Meter

partial def runSearch (a : Arguments) (p : EncodedProblem) (m : Meter) :
    Progress → IO (Outcome × Statistics)
  | .finished outcome statistics => return (outcome, statistics)
  | .running s => do
    let (usage, m) ← m.read
    runSearch a p m (a.engine.step p (a.limits.exceeded usage) s)

def readSource (path : String) : IO Source := do
  try
    return ⟨path, some (← IO.FS.readFile path)⟩
  catch _ =>
    return ⟨path, none⟩

def writeFile (r : Report) : IO Report := do
  match r.file with
  | none => return r
  | some (path, text) =>
    try
      IO.FS.writeFile path text
      return r
    catch _ =>
      return unwritten r path

def paint (colour : Bool) (note : String) : String :=
  if colour then "\x1b[2m" ++ note ++ "\x1b[0m" else note

def present (colour : Bool) (r : Report) : IO UInt32 := do
  IO.print r.output
  let r ← writeFile r
  for note in r.notes do
    IO.eprintln (paint colour note)
  return UInt32.ofNat r.exitCode

def solve (a : Arguments) (p : EncodedProblem) : IO Report := do
  let start ← IO.monoNanosNow
  let (outcome, statistics) ← runSearch a p { start } (a.engine.start p)
  if a.verbosity != .silent then
    IO.eprintln (paint a.colour (searchNote statistics))
  return conclude a p outcome

def start (a : Arguments) : IO Report := do
  let domain ← a.domain.mapM readSource
  let problem ← a.problem.mapM readSource
  match load domain problem with
  | .error e => return failed e
  | .ok p => if a.groundOnly then return sizes p else solve a p

end HtnPlanner.CommandLine

open HtnPlanner.CommandLine in
def main (args : List String) : IO UInt32 := do
  match Arguments.parse? args with
  | none => present false rejected
  | some a => present a.colour (← start a)
