import ScriptShell.Text.Sorted

/-!
Diagnostics of a compilation: a message at a place, shown with the line it points into and a
caret below the column.
-/
namespace ScriptShell

/-- A message about a source. A line of zero stands for no place. -/
structure Diagnostic where
  line : Nat
  column : Nat
  message : String
  /-- The line pointed into, empty when there is none. -/
  context : String
deriving Repr, DecidableEq

/-- The characters up to the next newline. -/
def firstLine (text : List Char) : List Char := text.takeWhile (· ≠ '\n')

/-- The line with the given number, counted from zero, if the text has so many. -/
def lineAt? : Nat → List Char → Option (List Char)
  | 0, text => some (firstLine text)
  | number + 1, text =>
    match text.dropWhile (· ≠ '\n') with
    | [] => none
    | _ :: rest => lineAt? number rest

namespace Diagnostic

/-- The file name shown in diagnostics. -/
def fileName : String := "Main.kiln"

/-- The line of a source that a place points into. -/
def contextOf (source : String) (line : Nat) : String :=
  if line = 0 then "" else String.ofList ((lineAt? (line - 1) source.toList).getD [])

/-- A message at a place of a source. -/
def make (source : String) (line column : Nat) (message : String) : Diagnostic :=
  ⟨line, column, message, contextOf source line⟩

/-- So many blanks. -/
def blanks (count : Nat) : String := String.ofList (List.replicate count ' ')

/-- A diagnostic as text. Tabs of the line are shown as single blanks. -/
def render (own : Diagnostic) : String :=
  let number := toString own.line
  let head := fileName ++ ":" ++ number ++ ":" ++ toString own.column ++ ": ERROR: " ++ own.message
  if own.context.isEmpty then head
  else
    let shown := String.ofList (own.context.toList.map fun c => if c = '\t' then ' ' else c)
    head ++ "\n " ++ number ++ " |   " ++ shown ++
      "\n " ++ blanks number.length ++ " |   " ++ blanks (own.column - 1) ++ "^"

/-- Several diagnostics, one after the other. -/
def renderAll (items : List Diagnostic) : String := joinWith "\n" (items.map render)

end Diagnostic

end ScriptShell
