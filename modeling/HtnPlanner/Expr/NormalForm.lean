import HtnPlanner.Expr.Simplify

namespace HtnPlanner.Expr

mutual

/-- The expression, or its negation if not `positive`, with negations on atoms, equalities and tasks
only. -/
def nnf (positive : Bool) : Expr → Expr
  | top => if positive then top else bottom
  | bottom => if positive then bottom else top
  | neg e => nnf (!positive) e
  | conj es => if positive then conj (nnfAll positive es) else disj (nnfAll positive es)
  | disj es => if positive then disj (nnfAll positive es) else conj (nnfAll positive es)
  | e => if positive then e else neg e

def nnfAll (positive : Bool) : List Expr → List Expr
  | [] => []
  | e :: es => nnf positive e :: nnfAll positive es

end

@[simp] theorem nnfAll_eq_map (positive : Bool) (es : List Expr) :
    nnfAll positive es = es.map (nnf positive) := by
  induction es with
  | nil => rfl
  | cons e es ih => simp [nnfAll, ih]

mutual

def clauses : Expr → List (List Expr)
  | top => [[]]
  | bottom => []
  | disj es => clausesAny es
  | conj es => clausesAll es
  | e => [[e]]

def clausesAny : List Expr → List (List Expr)
  | [] => []
  | e :: es => clauses e ++ clausesAny es

/-- One clause of each member, in every combination. -/
def clausesAll : List Expr → List (List Expr)
  | [] => [[]]
  | e :: es => (clauses e).flatMap fun c => (clausesAll es).map (c ++ ·)

end

/-- The disjunctive normal form: `top` has one clause, which is empty, and `bottom` has none. -/
def dnf (e : Expr) : List (List Expr) := (e.nnf true).simplify.clauses

/-- The simplified clauses of the disjunctive normal form, without those that are `bottom`. -/
def variants (e : Expr) : List Expr :=
  (e.dnf.map fun c => (conj c).simplify).filter (· != bottom)

end HtnPlanner.Expr
