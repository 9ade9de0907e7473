import ScriptShell.Typed
import ScriptShell.Typing.Error

/-!
The state of a type check. Members of the unit are checked on demand: each is pending, being
checked, or done. Scopes are lists of frames, the innermost first; the imports of a frame are
listed last one first, so that those in front of an import are a tail of the list.
-/
namespace ScriptShell

/-- A parameter or a value of a block. -/
structure Local where
  id : LocalId
  type : Ty
deriving Repr, DecidableEq

/-- The number of an import: the container it stands in, and its place among the imports. -/
structure ImportKey where
  owner : Option ContainerId
  index : Nat
deriving Repr, DecidableEq

/-- An import of a frame. -/
structure ScopedImport where
  key : ImportKey
  decl : Import
deriving Repr, DecidableEq

/-- One layer of names: values of a function or block, the members of a container, and imports,
the last one first. -/
structure Frame where
  locals : List (String × Local) := []
  container : Option ContainerId := none
  imports : List ScopedImport := []
deriving Repr, DecidableEq

/-- The names in sight, innermost frame first. -/
abbrev Scope := List Frame

namespace Scope

/-- The number of frames and imports of a scope. -/
def weight : Scope → Nat
  | [] => 0
  | frame :: outer => 1 + frame.imports.length + weight outer

/-- The class around a place, if the innermost container is one. -/
def innermostClass? (symbols : Symbols) : Scope → Option ContainerId
  | [] => none
  | frame :: outer =>
    match frame.container with
    | some id => if (symbols.get id).isClass then some id else none
    | none => innermostClass? symbols outer

end Scope

/-- How far the check of a member is. -/
inductive CheckState where
  | pending | checking | done
deriving Repr, DecidableEq

/-- How far the check of a member is, and whether its type is known. -/
structure Progress where
  state : CheckState := .pending
  typed : Bool := false
deriving Repr, DecidableEq

/-- A checked body. -/
inductive CheckedBody where
  | val (init : TypedExpr)
  | func (locals : List LocalId) (body : TypedExpr)
  | foreign

/-- The state of a check. `host` belongs to the evaluator of inline values and survives a
failed check. -/
structure Checking (σ : Type) where
  symbols : Symbols
  progress : List (MemberKey × Progress) := []
  /-- The paths of the imports resolved so far. -/
  paths : List (ImportKey × TypedExpr) := []
  bodies : List (MemberKey × CheckedBody) := []
  nextLocal : LocalId := 0
  host : σ

/-- Steps of a check. -/
abbrev Check (σ : Type) := EStateM TypeError (Checking σ)

/-- A member of the unit with the scope it is checked in. -/
structure PendingDecl where
  member : Member
  scope : Scope

/-- What a check may ask from outside: the value of an inline initialiser, and whether a
foreign function is there. -/
structure Services (σ : Type) where
  evaluate : Option (Symbols → TypedExpr → σ → Except String Int64 × σ) := none
  visible : Option (String → σ → Bool × σ) := none

/-- What stays fixed during the check of a unit. -/
structure CheckEnv (σ : Type) where
  services : Services σ
  /-- Top-level containers of finished units. -/
  globals : List (String × ContainerId)
  /-- Top-level containers of the unit. -/
  items : List (String × ContainerId) := []
  /-- The members of the unit that have bodies. -/
  decls : List (MemberKey × PendingDecl) := []
  exportedClass : Option ContainerId := none

/-- Checks a member whose type is asked for. -/
abbrev Visit (σ : Type) := MemberKey → Check σ Unit

namespace Check

/-- Refuses the unit. -/
def fail (span : Span) (cause : TypeCause) : Check σ α :=
  throw ⟨cause, span.line, span.columnStart⟩

/-- The present symbols. -/
def symbols : Check σ Symbols := return (← get).symbols

/-- The text of a type. -/
def text (type : Ty) : Check σ String := return (← symbols).typeText type

/-- Changes a member. -/
def modifyMember (key : MemberKey) (f : MemberSymbol → MemberSymbol) : Check σ Unit :=
  modify fun s => { s with symbols := s.symbols.modifyMember key f }

/-- How far a member of the unit is. Other members are not listed. -/
def progress? (key : MemberKey) : Check σ (Option Progress) :=
  return (← get).progress.lookup key

/-- Notes how far a member is. -/
def setProgress (key : MemberKey) (own : Progress) : Check σ Unit :=
  modify fun s => { s with
    progress := s.progress.map fun entry => if entry.1 = key then (key, own) else entry }

/-- The next number of a local. -/
def freshLocal : Check σ LocalId := do
  let s ← get
  set { s with nextLocal := s.nextLocal + 1 }
  return s.nextLocal

end Check

end ScriptShell
