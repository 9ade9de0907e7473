import ScriptShell.Fragment

/-!
Wrapping of a fragment into a compilation unit. The unit holds `<name>$Main`, whose `$main`
gives the text to show, and the fragment's statements as members of an exported module or
class. Class wrapping keeps the members in an instance, reached through `INSTANCE`.
-/
namespace ScriptShell

/-- How the statements of a fragment are held. -/
inductive WrapMode where
  /-- As members of a module. -/
  | object
  /-- As members of an instance that a module holds. -/
  | boxed
deriving Repr, DecidableEq

/-- A string literal with the given text. -/
def stringLiteral (text : String) : String :=
  "\"" ++ String.ofList (text.toList.flatMap fun c =>
    if c = '"' || c = '\\' then ['\\', c] else [c]) ++ "\""

namespace DisplayItem

/-- The expression that shows an item whose members are found under `path`. -/
def code (path : String) : DisplayItem → String
  | .definition label name => stringLiteral ("defined " ++ label ++ " " ++ name)
  | .imported name => stringLiteral ("import " ++ name)
  | .identity name => stringLiteral (name ++ " = ") ++ " ++ show(" ++ path ++ "." ++ name ++ ")"
  | .lazyIdentity name => stringLiteral (name ++ " = <lazy>")

end DisplayItem

/-- The expression that shows all items, one on each line. -/
def displayCode (items : List DisplayItem) (path : String) : String :=
  if items.isEmpty then "\"\""
  else joinWith " ++ \"\\n\" ++ " (items.map (·.code path))

/-- A fragment as a compilation unit. -/
structure WrappedUnit where
  /-- The wrapper's name, from which the names of the unit's containers are made. -/
  name : String
  source : String
  /-- The path under which later fragments find the members. -/
  userPath : String
  classWrapped : Bool
  /-- How many imports of the preamble come first among the exported ones. -/
  carried : Nat
deriving Repr, DecidableEq

namespace Wrapper

/-- The import that asks for a module in a session that wraps into classes. -/
def flatEscape : String := "special.wrap.obj"

/-- The statement asks for a module. -/
def hasFlatEscape (decl : Decl) : Bool :=
  decl.display.any (· = .imported flatEscape)

/-- The statements of a fragment, one on each line. -/
def joinCode (decls : List Decl) : String :=
  joinWith "" (decls.map (·.code ++ "\n"))

/-- A unit that holds the statements in a module. -/
def flat (display : List DisplayItem → String → String) (decls : List Decl)
    (preamble name : String) : WrappedUnit where
  name := name
  source := preamble ++ "\nmodule " ++ name ++ "$Main \x7b\ndef $main(): Str = " ++
    display (decls.flatMap (·.display)) name ++ "\n\x7d\nexport module " ++ name ++ " \x7b\n" ++
    joinCode decls ++ "\x7d\n"
  userPath := name
  classWrapped := false
  carried := 0

/-- A unit that holds the statements in an instance of a class. -/
def boxed (display : List DisplayItem → String → String) (decls : List Decl)
    (preamble name : String) : WrappedUnit where
  name := name
  source := "module " ++ name ++ "$Main \x7b\n" ++ preamble ++ "def $main(): Str = " ++
    display (decls.flatMap (·.display)) (name ++ ".INSTANCE") ++ "\n\x7d\nmodule " ++ name ++
    " \x7b\nval INSTANCE = new " ++ name ++ "$User\n\x7d\nexport class " ++ name ++
    "$User \x7b\n" ++ preamble ++ joinCode decls ++ "\x7d\n"
  userPath := name ++ ".INSTANCE"
  classWrapped := true
  carried := preamble.toList.count '\n'

/-- The name with its first letter in upper case. -/
def capitalize (name : String) : String :=
  match name.toList with
  | [] => ""
  | first :: rest => String.ofList (first.toUpper :: rest)

/-- Wraps statements into a unit, with the given expression to show them. -/
def wrapWith (display : List DisplayItem → String → String) (mode : WrapMode) (decls : List Decl)
    (preamble candidate : String) : WrappedUnit :=
  let name := Fragment.sanitize candidate
  match mode with
  | .object => flat display decls preamble name
  | .boxed =>
    if decls.any hasFlatEscape then
      flat display (decls.filter (!hasFlatEscape ·)) preamble ("specialObj" ++ capitalize name)
    else boxed display decls preamble name

/-- Wraps statements into a unit that shows what they did. -/
def wrap (mode : WrapMode) (decls : List Decl) (preamble candidate : String) : WrappedUnit :=
  wrapWith displayCode mode decls preamble candidate

end Wrapper

end ScriptShell
