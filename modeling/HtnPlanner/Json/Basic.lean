namespace HtnPlanner

/-- A JSON document. A text is `none` where an escape names one half of a surrogate pair only, a number
keeps its spelling, and an object keeps its fields in order with repeated names. -/
inductive Json
  | null
  | bool (b : Bool)
  | number (spelling : String)
  | text (t : Option String)
  | array (items : List Json)
  | object (fields : List (Option String × Json))
  deriving Inhabited

namespace Json

def ofString (s : String) : Json := .text (some s)

def tagged (tag : String) (content : Json) : Json := .object [(some tag, content)]

def record (fields : List (String × Json)) : Json :=
  .object (fields.map fun f => (some f.1, f.2))

def list (f : α → Json) (l : List α) : Json := .array (l.map f)

end Json

end HtnPlanner
