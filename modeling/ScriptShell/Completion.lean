import ScriptShell.Compiler

/-!
Completion of the word before a cursor. Behind a dot the members of the path in front of it are
offered; elsewhere the names that the preamble binds, the members of its wildcard imports, the
loaded top-level containers and the keywords. Names with a `$` are never offered.
-/
namespace ScriptShell

/-- The candidates for the word that starts at an offset, in increasing order. -/
structure Completion where
  start : Nat
  candidates : List String
deriving Repr, DecidableEq

namespace Completion

/-- What the imports of a preamble bind: names to paths, the last one first, and the paths of
wildcards. -/
structure Bindings where
  names : List (String × List String) := []
  wildcards : List (List String) := []

/-- Adds an import. -/
def Bindings.add (bindings : Bindings) (decl : Import) : Bindings :=
  { names := decl.selectors.foldl (fun names selector =>
      (selector.boundAs, decl.path ++ [selector.name]) :: names) bindings.names
    wildcards := bindings.wildcards ++ (if decl.wildcard then [decl.path] else []) }

/-- The bindings of a preamble; one that cannot be read has none. -/
def Bindings.ofText (preamble : String) : Bindings :=
  match Compiler.readSource preamble with
  | .ok program => program.imports.foldl Bindings.add {}
  | .error _ => {}

/-- The module or class whose members a member names. -/
def memberContainer (member : MemberSymbol) : Option ContainerId :=
  match member.nested with
  | some nested => some nested
  | none =>
    match member.type with
    | .object cls => some cls
    | _ => none

/-- Walks from a container along member names. -/
def walk (symbols : Symbols) (id : ContainerId) : List String → Option ContainerId
  | [] => some id
  | name :: rest => do
    let member ← symbols.member? ⟨id, name⟩
    walk symbols (← memberContainer member) rest

/-- How often a path may be expanded through the preamble. -/
def maxExpansions : Nat := 9

/-- The module or class that a path leads to. -/
def container? (table : SymbolTable) (bindings : Bindings) : Nat → List String → Option ContainerId
  | _, [] | 0, _ => none
  | fuel + 1, head :: tail =>
    match bindings.names.lookup head with
    | some path => container? table bindings fuel (path ++ tail)
    | none => do walk table.symbols (← table.find? head) tail

/-- The member names of the container that a path leads to. -/
def members (table : SymbolTable) (bindings : Bindings) (path : List String) : List String :=
  match container? table bindings maxExpansions path with
  | some id => (table.symbols.get id).members.map (·.name)
  | none => []

/-- The names offered where no path stands in front of the word. -/
def openNames (compiler : Compiler) (bindings : Bindings) : List String :=
  let table := compiler.table
  let loaded := table.globals.filter fun (_, id) =>
    compiler.bench.registry.hasArtifact (table.symbols.get id).artifact
  bindings.names.map (·.1) ++ bindings.wildcards.flatMap (members table bindings) ++
    loaded.map (·.1) ++ Keyword.all.map (·.text)

/-- A character of a dotted path. -/
def isPathChar (c : Char) : Bool := Ascii.isWord c || c = '.'

/-- The segments of the path at the end of a text, which is given last character first. -/
def pathBefore (reversed : List Char) : List String :=
  (Files.splitAt '.' (reversed.takeWhile isPathChar).reverse).map String.ofList

end Completion

/-- Completes the word that ends at the cursor. -/
def Compiler.complete (compiler : Compiler) (cursor : Nat) (preamble text : String) :
    Completion :=
  let before := (text.toList.take cursor).reverse
  let word := (before.takeWhile Ascii.isWord).reverse
  let front := before.dropWhile Ascii.isWord
  let bindings := Completion.Bindings.ofText preamble
  let names := match front with
    | '.' :: path => Completion.members compiler.table bindings (Completion.pathBefore path)
    | _ => Completion.openNames compiler bindings
  { start := front.length
    candidates := sortNames (names.filter fun name =>
      word.isPrefixOf name.toList && !name.toList.contains '$') }

end ScriptShell
