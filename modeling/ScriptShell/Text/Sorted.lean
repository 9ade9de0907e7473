/-!
Sets and finite maps of names, kept as lists in increasing byte order. A list read from left
to right is the order in which names are listed in answers.
-/
namespace ScriptShell

/-- Adds a name to an increasing list, unless it is there. -/
def insertName (name : String) : List String → List String
  | [] => [name]
  | first :: rest =>
    if name = first then first :: rest
    else if name < first then name :: first :: rest
    else first :: insertName name rest

/-- The distinct names of a list, in increasing order. -/
def sortNames (names : List String) : List String :=
  names.foldl (fun sorted name => insertName name sorted) []

/-- Binds a name in a map with increasing keys, replacing its former value. -/
def bindName (name : String) (value : α) : List (String × α) → List (String × α)
  | [] => [(name, value)]
  | (key, old) :: rest =>
    if name = key then (key, value) :: rest
    else if name < key then (name, value) :: (key, old) :: rest
    else (key, old) :: bindName name value rest

/-- Removes a name from a list of names. -/
def dropName (name : String) (names : List String) : List String :=
  names.filter (· ≠ name)

/-- Joins texts with a separator between neighbours. -/
def joinWith (separator : String) : List String → String
  | [] => ""
  | [text] => text
  | text :: rest => text ++ separator ++ joinWith separator rest

/-- Joins the segments of a path with dots. -/
def joinPath (segments : List String) : String :=
  joinWith "." segments

end ScriptShell
