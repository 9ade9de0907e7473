import ScriptShell.Files

/-!
Libraries are asked for by coordinates `name` or `name:version` and searched for in a list of
directories. The first directory that holds one of the coordinate's file names wins.
-/
namespace ScriptShell.Library

/-- The file names that provide a coordinate, the preferred one first. -/
def candidates (coordinate : String) : List String :=
  let name := String.ofList (coordinate.toList.takeWhile (· ≠ ':'))
  let version := String.ofList ((coordinate.toList.dropWhile (· ≠ ':')).drop 1)
  ["lib" ++ name ++ ".so" ++ (if version.isEmpty then "" else "." ++ version),
    name ++ ".bc", name ++ ".ll"]

/-- The paths at which a coordinate is searched for, in the order of the search. -/
def places (directories : List String) (coordinate : String) : List String :=
  directories.flatMap fun directory => (candidates coordinate).map (Files.join directory)

/-- The path of the file that provides a coordinate. -/
def find? (files : Files) (directories : List String) (coordinate : String) : Option String :=
  (places directories coordinate).find? files.isFile

/-- The wording for coordinates that nothing provides. -/
def unresolved (missing : List String) : String :=
  "unresolved dependencies:" ++ joinWith "" (missing.map (" " ++ ·))

/-- The paths of the files that provide the coordinates, in their order, or the coordinates
that nothing provides. -/
def resolve (files : Files) (directories coordinates : List String) :
    Except (List String) (List String) :=
  let missing := coordinates.filter fun coordinate => (find? files directories coordinate).isNone
  if missing.isEmpty then .ok (coordinates.filterMap (find? files directories))
  else .error missing

end ScriptShell.Library
