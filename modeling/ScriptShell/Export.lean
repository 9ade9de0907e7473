import ScriptShell.Typed
import ScriptShell.Ledger

/-!
Exports: what a unit offers to the units after it. These are the members of its exported
containers and the names their imports bind.
-/
namespace ScriptShell

/-- The entry of a member of the exported container itself. -/
def ImportEntry.own (name : String) (implicit : Bool) : ImportEntry :=
  { name, source := name, implicit }

/-- The entries of an import: one for each selector, and one for a wildcard. -/
def TypedImport.entries (own : TypedImport) : List ImportEntry :=
  (own.decl.selectors.zip own.implicits).map (fun (selector, implicit) =>
    { name := selector.boundAs, source := selector.name, path := own.path,
      relative := own.relative, implicit }) ++
  (if own.decl.wildcard then [{ ImportEntry.all own.path with relative := own.relative }] else [])

/-- The entries of a member. Expressions have none. -/
def TypedMember.entries : TypedMember → List ImportEntry
  | .imports own => own.entries
  | .val decl _ _ => [.own decl.name decl.implicit]
  | .func decl _ _ _ => [.own decl.name decl.implicit]
  | .foreign decl _ => [.own decl.name false]
  | .container decl => [.own decl.source.name false]
  | .expr _ _ => []

/-- The entries of a unit, in the order they are written. -/
def TypedProgram.exports (program : TypedProgram) : List ImportEntry :=
  (program.items.filter (·.source.exported)).flatMap fun item => item.members.flatMap (·.entries)

end ScriptShell
