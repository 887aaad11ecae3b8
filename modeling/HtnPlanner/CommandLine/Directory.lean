namespace HtnPlanner.CommandLine

structure Directory where
  files : List (String × String) := []
  deriving DecidableEq, Repr, Inhabited

namespace Directory

/-- The file that a path from the directory names. Leading `.` steps lead nowhere else. -/
def fileName? (path : String) : Option String :=
  let name? (parts : List String) : Option String :=
    match parts with
    | [name] => if ["", ".", ".."].contains name then none else some name
    | _ => none
  match path.splitOn "/" with
  | "." :: parts => name? (parts.dropWhile fun part => part == "." || part == "")
  | parts => name? parts

def read? (d : Directory) (path : String) : Option String :=
  (fileName? path).bind fun name => (d.files.find? (·.1 == name)).map (·.2)

def write? (d : Directory) (path text : String) : Option Directory :=
  (fileName? path).map fun name => ⟨d.files.filter (·.1 != name) ++ [(name, text)]⟩

end Directory

end HtnPlanner.CommandLine
