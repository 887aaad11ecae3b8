import HtnPlanner.Proofs.Lookup.Search
import HtnPlanner.Proofs.Search.Replay

/-!
A plan of known operators is replayed without looking for what is not there, and so is every fault reported.
-/

namespace HtnPlanner.Lookup

def operatorName (p : EncodedProblem) : Operator → Option String
  | .action i => do
    let a ← p.actions[i]?
    render p.symbols a.name a.args
  | .method i => do
    let m ← p.methods[i]?
    render p.symbols m.name m.args

def message (p : EncodedProblem) : PlanFault → Option String
  | .notApplicable step o state => do
    some ("Step " ++ toString step ++ " " ++ (← operatorName p o) ++ " is not applicable in state " ++ state.render)
  | .notNext step o => do
    some ("Step " ++ toString step ++ " " ++ (← operatorName p o)
      ++ " does not accomplish a task that can be processed next")
  | fault => some (fault.message p)

def positionOf (s : Situation) (task : Nat) : Option (Option Nat) :=
  firstOf (fun i => s.network.tasks[i]?.map (· == task)) s.network.first

def replayStep (p : EncodedProblem) (step : Nat) (s : Situation) (o : Operator) :
    Option (Except String Situation) := do
  let task ← p.taskOf? o
  if ← applicable p s.state o then
    match ← positionOf s task with
    | some position => (apply p s position o).map .ok
    | none => (message p (.notNext step o)).map .error
  else
    (message p (.notApplicable step o s.state)).map .error

def replay (p : EncodedProblem) (step : Nat) (s : Situation) : List Operator → Option (Except String Situation)
  | [] => some (.ok s)
  | o :: os => do
    match ← replayStep p step s o with
    | .ok s => replay p (step + 1) s os
    | .error text => some (.error text)

def validate (p : EncodedProblem) (plan : Plan) : Option (Except String Unit) :=
  if p.isSolvable then do
    match ← replay p 0 p.initial plan.steps with
    | .ok s => some ((p.checkEnd s).mapError (·.message p))
    | .error text => some (.error text)
  else
    (message p .ungroundedNetwork).map .error

variable {p : EncodedProblem} {s : Situation} {o : Operator} {os : List Operator} {step : Nat}

theorem operatorName_eq (hp : p.Legible) (ho : p.knows o = true) : operatorName p o = some (p.operatorName o) := by
  cases o with
  | action i =>
      obtain ⟨a, ha⟩ := exists_action ho
      have hname := render_eq (hp.actionArgs a (List.mem_of_getElem? ha)) a.name
      rw [operatorName, EncodedProblem.operatorName, ha, Option.bind_eq_bind, Option.bind_some, hname]
      rfl
  | method i =>
      obtain ⟨m, hm⟩ := exists_method ho
      have hname := render_eq (hp.methodArgs m (List.mem_of_getElem? hm)) m.name
      rw [operatorName, EncodedProblem.operatorName, hm, Option.bind_eq_bind, Option.bind_some, hname]
      rfl

theorem positionOf_eq (hs : s.network.Fits p.tasks.length) (task : Nat) :
    positionOf s task = some (EncodedProblem.positionOf? s task) := by
  refine firstOf_eq_some fun i hi => ?_
  have hk := List.getElem?_eq_getElem (hs.lt_length hi)
  rw [hk]
  rfl

theorem replayStep_eq (hp : p.Legible) (hs : s.network.Fits p.tasks.length) (ho : p.knows o = true) (step : Nat) :
    replayStep p step s o = some ((p.replayStep step s o).mapError (·.message p)) := by
  obtain ⟨task, htask⟩ := Option.isSome_iff_exists.mp ho
  simp only [replayStep, EncodedProblem.replayStep, htask, applicable_eq ho, positionOf_eq hs, message,
    operatorName_eq hp ho, Option.bind_eq_bind, Option.bind_some, Option.map_some]
  split
  · cases hposition : EncodedProblem.positionOf? s task with
    | none => rfl
    | some position =>
        have hfirst := (EncodedProblem.positionOf?_eq_some_iff.mp hposition).1
        simp only [apply_eq hp hs (hs.lt_length hfirst) ho, Option.map_some]
        rfl
  · rfl

theorem replay_eq (hp : p.Legible) (hs : s.network.Fits p.tasks.length) (hos : ∀ o ∈ os, p.knows o = true) :
    replay p step s os = some ((p.replay step s os).mapError (·.message p)) := by
  induction os generalizing step s with
  | nil => rfl
  | cons o os ih =>
      rw [replay, EncodedProblem.replay, replayStep_eq hp hs (hos o List.mem_cons_self), Option.bind_eq_bind,
        Option.bind_some]
      cases hstep : p.replayStep step s o with
      | error fault => rfl
      | ok t =>
          obtain ⟨task, position, -, -, hposition, rfl⟩ := EncodedProblem.replayStep_eq_ok.mp hstep
          have hfirst := (EncodedProblem.positionOf?_eq_some_iff.mp hposition).1
          exact ih (hp.fits_apply hs (hs.lt_length hfirst) o) fun o ho => hos o (List.mem_cons_of_mem _ ho)

theorem validate_eq (hp : p.Legible) {plan : Plan} (hplan : ∀ o ∈ plan.steps, p.knows o = true) :
    validate p plan = some ((p.validate plan).mapError (·.message p)) := by
  rw [validate, EncodedProblem.validate]
  split
  · rw [replay_eq hp hp.initial hplan, Option.bind_eq_bind, Option.bind_some]
    cases p.replay 0 p.initial plan.steps <;> rfl
  · rfl

end HtnPlanner.Lookup
