/-!
The ledger of imports: the names that finished fragments hand on to later ones. A named entry
replaces the live entry of the same name in its place, so that the latest definition of a name
wins while the order of first appearance stays; wildcard entries only accumulate.
-/
namespace ScriptShell

/-- One import carried from a fragment to later ones: the name it binds, the member it comes
from, and the path of that member's owner. A fresh entry has no path, or one that is relative
to the fragment it came from. -/
structure ImportEntry where
  name : String
  source : String
  path : String := ""
  wildcard : Bool := false
  implicit : Bool := false
  relative : Bool := false
deriving Repr, DecidableEq

namespace ImportEntry

/-- The entry for all members of a path. -/
def all (path : String) : ImportEntry :=
  { name := "_", source := "_", path, wildcard := true }

/-- An entry as an import statement. -/
def render (entry : ImportEntry) : String :=
  if entry.wildcard then "import " ++ entry.path ++ "._"
  else if entry.name = entry.source then "import " ++ entry.path ++ "." ++ entry.source
  else "import " ++ entry.path ++ ".\x7b" ++ entry.source ++ " => " ++ entry.name ++ "\x7d"

end ImportEntry

/-- The live imports of a session, oldest first. -/
structure Ledger where
  entries : List ImportEntry := []
deriving Repr, DecidableEq

namespace Ledger

/-- A named entry takes the place of the live one of its name, or comes last. -/
def place (entry : ImportEntry) : List ImportEntry → List ImportEntry
  | [] => [entry]
  | first :: rest =>
    if !first.wildcard && first.name = entry.name then entry :: rest
    else first :: place entry rest

/-- Adds one entry. -/
def insert (ledger : Ledger) (entry : ImportEntry) : Ledger :=
  ⟨if entry.wildcard then ledger.entries ++ [entry] else place entry ledger.entries⟩

/-- Adds entries in order. -/
def update (ledger : Ledger) (entries : List ImportEntry) : Ledger :=
  entries.foldl insert ledger

/-- Import statements, one on each line. -/
def renderLines : List ImportEntry → String
  | [] => ""
  | entry :: rest => entry.render ++ "\n" ++ renderLines rest

/-- All live imports as statements. -/
def block (ledger : Ledger) : String := renderLines ledger.entries

/-- Wildcard and implicit entries are always needed, others when their name is mentioned. -/
def needed (names : List String) (entry : ImportEntry) : Bool :=
  entry.wildcard || entry.implicit || names.contains entry.name

/-- The live imports that a fragment mentioning `names` needs, as statements. -/
def blockFor (ledger : Ledger) (names : List String) : String :=
  renderLines (ledger.entries.filter (needed names))

end Ledger

end ScriptShell
