import ScriptShell.Toolchain

/-!
Class path roots. A root is a file, or a directory that stands for the library files in it. The
library of a list of roots holds the functions of all files that can be loaded. A file of code
that cannot be loaded, or that defines a symbol again, is left out as a whole; shared libraries
come behind all code, and offer what is not defined before.
-/
namespace ScriptShell.Classpath

/-- The last segment of a path. -/
def fileName (path : String) : String :=
  String.ofList (path.toList.reverse.takeWhile (· ≠ '/')).reverse

/-- The end of a file name from its last dot. -/
def extension (path : String) : String :=
  let name := (fileName path).toList.reverse
  if name.contains '.' then "." ++ String.ofList (name.takeWhile (· ≠ '.')).reverse else ""

/-- The given characters stand somewhere in a text. -/
def holds (part : List Char) : List Char → Bool
  | [] => part.isEmpty
  | c :: rest => part.isPrefixOf (c :: rest) || holds part rest

/-- File names of libraries. -/
def isLibraryName (name : String) : Bool :=
  [".so", ".bc", ".ll"].any (fun ending => ending.toList.isSuffixOf name.toList) ||
    holds ".so.".toList name.toList

/-- The files that a root stands for, in increasing order. -/
def expand (files : Files) (root : String) : List String :=
  if files.isDirectory root then
    sortNames (((files.names root).filter isLibraryName).map (Files.join root))
  else [root]

/-- What a library file provides. -/
inductive Loaded where
  | code (functions : FunctionTable)
  | shared (functions : FunctionTable)

/-- The functions that a library file provides. -/
def Loaded.functions : Loaded → FunctionTable
  | .code functions | .shared functions => functions

/-- Loads a library file. Its extension tells how. -/
def load? (tools : Toolchain) (files : Files) (path : String) : Option Loaded :=
  if extension path = ".bc" || extension path = ".ll" then
    ((files.read? path).bind (tools.readCode path)).map .code
  else ((files.read? path).bind (tools.openShared path)).map .shared

/-- A library being put together, and the files left out. -/
structure Build where
  defined : FunctionTable := []
  shared : FunctionTable := []
  refused : List String := []

/-- The functions of a library, those searched first in front. -/
def Build.functions (build : Build) : FunctionTable := build.defined ++ build.shared

/-- Adds a file. -/
def Build.add (tools : Toolchain) (files : Files) (build : Build) (path : String) : Build :=
  match load? tools files path with
  | none => { build with refused := build.refused ++ [path] }
  | some (.shared functions) => { build with shared := build.shared ++ functions }
  | some (.code functions) =>
    if functions.any fun entry => (build.defined.lookup entry.1).isSome then
      { build with refused := build.refused ++ [path] }
    else { build with defined := build.defined ++ functions }

/-- The library of a list of roots. -/
def build (tools : Toolchain) (files : Files) (roots : List String) : Build :=
  (roots.flatMap (expand files)).foldl (Build.add tools files) {}

/-- The line that reports a file left out. -/
def warning (path : String) : String := "warning: could not load classpath root " ++ path ++ "\n"

end ScriptShell.Classpath
