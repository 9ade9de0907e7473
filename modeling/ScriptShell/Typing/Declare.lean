import ScriptShell.Typing.Scope

/-!
Declaration of the containers of a unit. Every container gets a number and the symbols of its
members; the members with bodies are collected together with the scope they are checked in.
Types are not known yet. In a class, constructor parameters and values take the slots of its
objects in the order they are written.
-/
namespace ScriptShell.Typing

variable {σ : Type}

/-- Members with bodies. -/
abbrev Declared := List (MemberKey × PendingDecl)

/-- The imports among members, numbered from `index`. -/
def scopedImports (owner : Option ContainerId) (index : Nat) : List Import → List ScopedImport
  | [] => []
  | decl :: rest => ⟨⟨owner, index⟩, decl⟩ :: scopedImports owner (index + 1) rest

/-- The frame of a list of imports, the last one first. -/
def importFrame (owner : Option ContainerId) (imports : List Import) : Frame :=
  { container := owner, imports := (scopedImports owner 0 imports).reverse }

/-- The imports among the members of a container. -/
def memberImports (members : List Member) : List Import :=
  members.filterMap fun
    | .imports decl => some decl
    | _ => none

/-- The frame that a container opens for its members. -/
def containerFrame (id : ContainerId) (members : List Member) : Frame :=
  importFrame (some id) (memberImports members)

/-- Takes the next slot of a class. -/
def takeSlot (id : ContainerId) : Check σ Nat := do
  let slot := ((← Check.symbols).get id).slotCount
  modify fun s => { s with symbols := s.symbols.modify id fun container =>
    { container with slotCount := slot + 1 } }
  return slot

/-- Adds a member; the names of a container are distinct. -/
def addMember (id : ContainerId) (span : Span) (member : MemberSymbol) : Check σ Unit := do
  let container := (← Check.symbols).get id
  if (container.find? member.name).isSome then
    Check.fail span (.duplicateMember member.name container.describe)
  modify fun s => { s with symbols := s.symbols.modify id fun container =>
    { container with members := container.members ++ [member] } }

/-- The path of a member from the top-level container. -/
def memberSymbol (id : ContainerId) (name : String) : Check σ String :=
  return ((← Check.symbols).get id).qualified ++ "." ++ name

/-- Constructor parameters are values that each object stores. -/
def declareParams (id : ContainerId) (span : Span) : List ParamDecl → Check σ Unit
  | [] => return ()
  | param :: rest => do
    let slot ← takeSlot id
    addMember id span
      { name := param.name, kind := .val, isParam := true, slot := some slot,
        symbol := ← memberSymbol id param.name }
    declareParams id span rest

/-- The symbol of a value. Inline values of a class are not stored in its objects. -/
def valSymbol (id : ContainerId) (decl : ValDecl) : Check σ MemberSymbol := do
  let symbol ← memberSymbol id decl.name
  let stored := ((← Check.symbols).get id).isClass
  match decl.mode with
  | .inline =>
    return { name := decl.name, kind := .inlineVal, implicit := decl.implicit, symbol }
  | .lazy =>
    if stored then
      let slot ← takeSlot id
      let flagSlot ← takeSlot id
      return { name := decl.name, kind := .lazyVal, implicit := decl.implicit, symbol,
               slot := some slot, flagSlot := some flagSlot }
    else return { name := decl.name, kind := .lazyVal, implicit := decl.implicit, symbol }
  | .strict =>
    if stored then
      let slot ← takeSlot id
      return { name := decl.name, kind := .val, implicit := decl.implicit, symbol,
               slot := some slot }
    else return { name := decl.name, kind := .val, implicit := decl.implicit, symbol }

mutual

/-- Declares a container with all that is nested in it. -/
def declareContainer (owner : Option ContainerId) (outer : Scope) (artifact : String) :
    Container → Check σ (ContainerId × Declared)
  | .mk span kind name _ params members => do
    let symbols ← Check.symbols
    let qualified := match owner with
      | some owner => (symbols.get owner).qualified ++ "." ++ name
      | none => name
    let (id, symbols) := symbols.push { isClass := kind = .classKind, name, qualified, artifact }
    modify fun s => { s with symbols }
    declareParams id span params
    let declared ← declareMembers id (containerFrame id members :: outer) artifact members
    return (id, declared)

/-- Declares members in the order they are written. -/
def declareMembers (id : ContainerId) (scope : Scope) (artifact : String) :
    List Member → Check σ Declared
  | [] => return []
  | .val decl :: rest => do
    addMember id decl.span (← valSymbol id decl)
    return (⟨id, decl.name⟩, ⟨.val decl, scope⟩) :: (← declareMembers id scope artifact rest)
  | .func decl :: rest => do
    addMember id decl.span
      { name := decl.name, kind := .func, implicit := decl.implicit, parens := decl.parens,
        symbol := ← memberSymbol id decl.name }
    return (⟨id, decl.name⟩, ⟨.func decl, scope⟩) :: (← declareMembers id scope artifact rest)
  | .foreign decl :: rest => do
    addMember id decl.span { name := decl.name, kind := .foreign, symbol := decl.name }
    return (⟨id, decl.name⟩, ⟨.foreign decl, scope⟩) :: (← declareMembers id scope artifact rest)
  | .container decl :: rest => do
    let (nested, declared) ← declareContainer (some id) scope artifact decl
    addMember id decl.span { name := decl.name, kind := .container, nested := some nested }
    return declared ++ (← declareMembers id scope artifact rest)
  | .imports _ :: rest | .expr _ _ :: rest => declareMembers id scope artifact rest

end

/-- Declares the items of a unit; their names are distinct. -/
def declareItems (unit : Scope) (items : List (String × ContainerId)) :
    List Container → Check σ (List (String × ContainerId) × Declared)
  | [] => return (items, [])
  | item :: rest => do
    if (items.lookup item.name).isSome then Check.fail item.span (.duplicateItem item.name)
    let (id, declared) ← declareContainer none unit item.name item
    let (items, others) ← declareItems unit (items ++ [(item.name, id)]) rest
    return (items, declared ++ others)

end ScriptShell.Typing
