import HtnPlanner.Expr.Basic

namespace HtnPlanner.Expr

def conjOf : List Expr → Expr
  | [] => top
  | [e] => e
  | es => conj es

def disjOf : List Expr → Expr
  | [] => bottom
  | [e] => e
  | es => disj es

/-- Adds a member to a conjunction in the making. The members of a nested conjunction are taken over
as they are; any other is left out if it is there already. -/
def addConjunct (parts : List Expr) : Expr → List Expr
  | top => parts
  | conj es => parts ++ es
  | e => if e ∈ parts then parts else parts ++ [e]

def addDisjunct (parts : List Expr) : Expr → List Expr
  | bottom => parts
  | disj es => parts ++ es
  | e => if e ∈ parts then parts else parts ++ [e]

def conjoin (es : List Expr) : Expr :=
  if bottom ∈ es then bottom else conjOf (es.foldl addConjunct [])

def disjoin (es : List Expr) : Expr :=
  if top ∈ es then top else disjOf (es.foldl addDisjunct [])

def negate : Expr → Expr
  | top => bottom
  | bottom => top
  | neg e => e
  | e => neg e

/-- Two constants compare at once, and an argument equals itself. -/
def equate : Arg → Arg → Expr
  | .const a, .const b => if a = b then top else bottom
  | a, b => if a = b then top else equal a b

mutual

/-- Folds truth values and constant equalities, flattens nested conjunctions and disjunctions and
removes double negations. -/
def simplify : Expr → Expr
  | equal a b => equate a b
  | neg e => negate (simplify e)
  | conj es => conjoin (simplifyAll es)
  | disj es => disjoin (simplifyAll es)
  | e => e

def simplifyAll : List Expr → List Expr
  | [] => []
  | e :: es => simplify e :: simplifyAll es

end

@[simp] theorem simplifyAll_eq_map (es : List Expr) : simplifyAll es = es.map simplify := by
  induction es with
  | nil => rfl
  | cons e es ih => simp [simplifyAll, ih]

def settleAtom (value : Fact → Option Bool) (a : Atom) : Expr :=
  match a.fact?.bind value with
  | some true => top
  | some false => bottom
  | none => atom a

mutual

def settle (value : Fact → Option Bool) : Expr → Expr
  | atom a => settleAtom value a
  | neg e => neg (settle value e)
  | conj es => conj (settleAll value es)
  | disj es => disj (settleAll value es)
  | e => e

def settleAll (value : Fact → Option Bool) : List Expr → List Expr
  | [] => []
  | e :: es => settle value e :: settleAll value es

end

@[simp] theorem settleAll_eq_map (value : Fact → Option Bool) (es : List Expr) :
    settleAll value es = es.map (settle value) := by
  induction es with
  | nil => rfl
  | cons e es ih => simp [settleAll, ih]

def assign (value : Fact → Option Bool) (e : Expr) : Expr := (e.settle value).simplify

end HtnPlanner.Expr
