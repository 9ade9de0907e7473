import ScriptShell.Text.Ascii
import ScriptShell.Text.Sorted

/-!
A tree of files around a working directory. A written path is walked segment by segment, either
from the root or from the working directory, and ends at its first zero byte. The directories
are those that hold a file, the root, and the working directory with all directories above it.
-/
namespace ScriptShell

/-- Why a file could not be opened for writing. -/
inductive FileError where
  | notFound
  | isDirectory
  | notDirectory
deriving Repr, DecidableEq

/-- The wording of a file error. -/
def FileError.message : FileError → String
  | .notFound => "No such file or directory"
  | .isDirectory => "Is a directory"
  | .notDirectory => "Not a directory"

/-- A directory that is always there. -/
inductive Anchor where
  | root
  /-- The directory so many levels above the working directory. -/
  | above (levels : Nat)
deriving Repr, DecidableEq

/-- A place in the tree: the names that lead to it from an anchor. -/
structure Place where
  anchor : Anchor
  names : List String := []
deriving Repr, DecidableEq

namespace Place

/-- The directory that a place is in; the root is in itself. -/
def parent (place : Place) : Place :=
  match place.names, place.anchor with
  | [], .root => place
  | [], .above levels => ⟨.above (levels + 1), []⟩
  | names, anchor => ⟨anchor, names.dropLast⟩

/-- Where a written segment leads from a directory. -/
def step (place : Place) (segment : String) : Place :=
  if segment = "" || segment = "." then place
  else if segment = ".." then place.parent
  else { place with names := place.names ++ [segment] }

end Place

/-- The known files, by their places. -/
structure Files where
  entries : List (Place × String) := []
deriving Repr, DecidableEq

namespace Files

/-- Splits a text at every `mark`. -/
def splitAt (mark : Char) : List Char → List (List Char)
  | [] => [[]]
  | c :: rest =>
    if c = mark then [] :: splitAt mark rest
    else
      match splitAt mark rest with
      | [] => [[c]]
      | first :: others => (c :: first) :: others

/-- The segments of a written path, empty ones included. -/
def segments (path : String) : List String :=
  (splitAt '/' path.toList).map String.ofList

/-- Where the walk along a path starts. -/
def origin (path : String) : Place :=
  if path.toList.head? = some '/' then ⟨.root, []⟩ else ⟨.above 0, []⟩

/-- The content of the file at a place. -/
def contentAt? (files : Files) (place : Place) : Option String :=
  (files.entries.find? (·.1 = place)).map (·.2)

/-- The entries below a place have names that start with its own. -/
def isBelow (place inner : Place) : Bool :=
  inner.anchor = place.anchor && inner.names.length > place.names.length &&
    inner.names.take place.names.length = place.names

/-- The place is an anchor or holds a file. -/
def isDirectoryAt (files : Files) (place : Place) : Bool :=
  place.names.isEmpty || files.entries.any fun entry => isBelow place entry.1

/-- Why a place that is no directory cannot be walked through. -/
def obstacle (files : Files) (place : Place) : FileError :=
  if (files.contentAt? place).isSome then .notDirectory else .notFound

/-- Walks from a place along written segments. The place reached need not exist, but every
place before it has to be a directory. -/
def walk (files : Files) (place : Place) : List String → Except FileError Place
  | [] => .ok place
  | segment :: rest =>
    if files.isDirectoryAt place then walk files (place.step segment) rest
    else .error (files.obstacle place)

/-- The place that a written path leads to. -/
def locate (files : Files) (path : String) : Except FileError Place :=
  let path := Ascii.untilNul path
  if path.isEmpty then .error .notFound else files.walk (origin path) (segments path)

/-- A directory stands at the path. -/
def isDirectory (files : Files) (path : String) : Bool :=
  (files.locate path).toOption.any files.isDirectoryAt

/-- Reads the file at the path. -/
def read (files : Files) (path : String) : Except FileError String := do
  let place ← files.locate path
  if files.isDirectoryAt place then throw .isDirectory
  match files.contentAt? place with
  | some content => return content
  | none => throw .notFound

/-- The content of the file at the path. -/
def read? (files : Files) (path : String) : Option String := (files.read path).toOption

/-- A file stands at the path. -/
def isFile (files : Files) (path : String) : Bool := (files.read? path).isSome

/-- A file or directory stands at the path. -/
def exists? (files : Files) (path : String) : Bool := files.isFile path || files.isDirectory path

/-- The names in a directory, in increasing order. -/
def names (files : Files) (path : String) : List String :=
  match files.locate path with
  | .error _ => []
  | .ok place =>
    sortNames (files.entries.filterMap fun entry =>
      if isBelow place entry.1 then entry.1.names[place.names.length]? else none)

/-- Sets the content of the file at a place. -/
def put (files : Files) (place : Place) (content : String) : Files :=
  if (files.contentAt? place).isSome then
    ⟨files.entries.map fun entry => if entry.1 = place then (place, content) else entry⟩
  else ⟨files.entries ++ [(place, content)]⟩

/-- The place of a file to be written. A path that ends in `/` can only be a directory, even if
nothing is there. -/
def writable (files : Files) (path : String) : Except FileError Place := do
  let path := Ascii.untilNul path
  let segments := segments path
  if path.isEmpty then throw .notFound
  let named := (segments.reverse.dropWhile (·.isEmpty)).reverse
  let place ← files.walk (origin path) named
  if segments.getLast? = some "" || files.isDirectoryAt place then throw .isDirectory
  return place

/-- Adds text to the end of a file, which is made if its directory exists. -/
def append (files : Files) (path text : String) : Except FileError Files := do
  let place ← files.writable path
  return files.put place ((files.contentAt? place).getD "" ++ text)

/-- The place of a path, whose directories need not exist. -/
def placeOf (path : String) : Place :=
  let path := Ascii.untilNul path
  (segments path).foldl Place.step (origin path)

/-- The files with the given paths and contents. -/
def ofList (contents : List (String × String)) : Files :=
  contents.foldl (fun files (path, content) => files.put (placeOf path) content) {}

/-- A file name below a directory. A `/` is put between them only if neither brings one, and
those in front of the name are dropped if the directory ends in one. -/
def join (directory name : String) : String :=
  if directory.isEmpty then name
  else if directory.toList.getLast? = some '/' then
    directory ++ String.ofList (name.toList.dropWhile (· = '/'))
  else if name.toList.head? = some '/' then directory ++ name
  else directory ++ "/" ++ name

end Files

end ScriptShell
