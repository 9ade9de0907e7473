import ScriptShell.Typing.Declare
import ScriptShell.Typing.Expression

/-!
The type check of a unit. Its containers are declared, the types of constructor parameters
resolved, and then imports and members are checked in the order they are written; a member that
another one needs is checked first. A member that needs its own type must have it written.
Each member is begun at most once, so the nesting of such visits is bounded by their number.
-/
namespace ScriptShell.Typing

variable {σ : Type}

/-- Keeps a checked body. -/
def keepBody (key : MemberKey) (body : CheckedBody) : Check σ Unit :=
  modify fun s => { s with bodies := (key, body) :: s.bodies }

/-- Notes that the type of a member is known while its body is still being checked. -/
def markTyped (key : MemberKey) : Check σ Unit := Check.setProgress key ⟨.checking, true⟩

/-- The value of an inline member, computed by the host. -/
def inlineValue (env : CheckEnv σ) (decl : ValDecl) (init : TypedExpr) : Check σ Int64 := do
  match env.services.evaluate with
  | none =>
    Check.fail decl.span
      (.inlineValue decl.name "compile-time evaluation is not available")
  | some evaluate =>
    let s ← get
    let (value, host) := evaluate s.symbols init s.host
    set { s with host }
    match value with
    | .ok value => return value
    | .error reason => Check.fail decl.span (.inlineValue decl.name reason)

/-- A value: its ascription, its initialiser, and the constant if it is inline. -/
def checkVal (env : CheckEnv σ) (visit : Visit σ) (scope : Scope) (key : MemberKey)
    (decl : ValDecl) : Check σ Unit := do
  let declared ← decl.ascription.mapM fun ref => do
    let type ← resolveType env visit scope ref
    Check.modifyMember key ({ · with type })
    markTyped key
    return type
  let init ← checkValue env visit scope decl.init
  match declared with
  | some type =>
    if init.type ≠ type then
      Check.fail init.span (.typeMismatch (← Check.text type) (← Check.text init.type))
  | none => Check.modifyMember key ({ · with type := init.type })
  if decl.mode = .inline then
    if init.type ≠ .int then Check.fail decl.span (.inlineType decl.name)
    let constant ← inlineValue env decl init
    Check.modifyMember key ({ · with constant })
  keepBody key (.val init)

/-- The parameters of a function: locals with distinct names, in their written order. -/
def checkParams (env : CheckEnv σ) (visit : Visit σ) (scope : Scope) (key : MemberKey)
    (function : String) (locals : List (String × Local)) :
    List ParamDecl → Check σ (List (String × Local))
  | [] => return locals
  | param :: rest => do
    if (locals.lookup param.name).isSome then
      Check.fail param.type.span (.duplicateParam param.name function)
    let type ← resolveType env visit scope param.type
    let id ← Check.freshLocal
    Check.modifyMember key fun member =>
      { member with params := member.params ++ [⟨param.name, type⟩] }
    checkParams env visit scope key function (locals ++ [(param.name, ⟨id, type⟩)]) rest

/-- A function: its parameters, its result type if written, and its body. -/
def checkFunc (env : CheckEnv σ) (visit : Visit σ) (scope : Scope) (key : MemberKey)
    (decl : DefDecl) : Check σ Unit := do
  let locals ← checkParams env visit scope key decl.name [] decl.params
  let declared ← decl.result.mapM fun ref => do
    let type ← resolveType env visit scope ref
    Check.modifyMember key ({ · with type })
    markTyped key
    return type
  let body ← checkValue env visit ({ locals } :: scope) decl.body
  match declared with
  | some type =>
    if body.type ≠ type then
      Check.fail body.span
        (.resultMismatch decl.name (← Check.text type) (← Check.text body.type))
  | none => Check.modifyMember key ({ · with type := body.type })
  keepBody key (.func (locals.map (·.2.id)) body)

/-- A foreign function: its types, and whether it is there. -/
def checkForeign (env : CheckEnv σ) (visit : Visit σ) (scope : Scope) (key : MemberKey)
    (decl : ForeignDecl) : Check σ Unit := do
  for param in decl.params do
    let type ← resolveType env visit scope param.type
    Check.modifyMember key fun member =>
      { member with params := member.params ++ [⟨param.name, type⟩] }
  let type ← resolveType env visit scope decl.result
  Check.modifyMember key ({ · with type })
  markTyped key
  if let some visible := env.services.visible then
    let s ← get
    let (found, host) := visible decl.name s.host
    set { s with host }
    if !found then Check.fail decl.span (.foreignMissing decl.name)
  keepBody key .foreign

/-- The body of a member, where `visit` checks the members it needs. -/
def checkPending (env : CheckEnv σ) (visit : Visit σ) (key : MemberKey) (decl : PendingDecl) :
    Check σ Unit :=
  match decl.member with
  | .val own => checkVal env visit decl.scope key own
  | .func own => checkFunc env visit decl.scope key own
  | .foreign own => checkForeign env visit decl.scope key own
  | _ => return ()

/-- Checks a member unless that is done. `fuel` bounds how many members may be begun inside one
another. -/
def checkMember (env : CheckEnv σ) : Nat → Visit σ
  | 0, _ => return ()
  | fuel + 1, key => do
    match env.decls.lookup key, ← Check.progress? key with
    | some decl, some own =>
      if own.state = .pending then
        Check.setProgress key ⟨.checking, own.typed⟩
        checkPending env (checkMember env fuel) key decl
        Check.setProgress key ⟨.done, true⟩
    | _, _ => return ()

/-- Checks a member, with room for all the members of the unit inside one another. -/
def visitMember (env : CheckEnv σ) : Visit σ := checkMember env (env.decls.length + 1)

/-- The path under which later units find what an import path names, and whether it starts at a
member of the exported class. -/
def exportPath (symbols : Symbols) (exported : Option ContainerId) : TypedExpr → String × Bool
  | .select _ _ object member _ =>
    let (base, relative) := exportPath symbols exported object
    (base ++ "." ++ member, relative)
  | .aliased _ _ _ path => exportPath symbols exported path
  | .name _ _ name (.member key false _ _) =>
    ((symbols.get key.owner).qualified ++ "." ++ name, false)
  | .name _ _ name (.member key true onThis _) => (name, onThis && exported = some key.owner)
  | .name _ _ _ (.container id) => ((symbols.get id).qualified, false)
  | .name _ _ name _ => (name, false)
  | _ => ("", false)

/-- The import of a frame that comes after the given number of others, with the scope of its
path. -/
def importAt? (scope : Scope) (index : Nat) : Option (ScopedImport × Scope) :=
  match scope with
  | [] => none
  | frame :: outer =>
    match frame.imports.drop (frame.imports.length - (index + 1)) with
    | own :: earlier => some (own, { frame with imports := earlier } :: outer)
    | [] => none

/-- An import: its path, and the members it picks, which must be there. -/
def checkImport (env : CheckEnv σ) (own : ScopedImport) (scope : Scope) :
    Check σ TypedImport := do
  let path ← importPath env (visitMember env) own scope
  let symbols ← Check.symbols
  let target := (path.type.container?.map symbols.get).getD {}
  let implicits ← own.decl.selectors.mapM fun selector =>
    match target.find? selector.name with
    | some member => return member.implicit
    | none => Check.fail own.decl.span (.notMember selector.name own.decl.pathText)
  let (text, relative) := exportPath symbols env.exportedClass path
  return ⟨own.decl, implicits, text, relative⟩

/-- Imports of a frame from a number on, in the order they are written. -/
def checkImports (env : CheckEnv σ) (scope : Scope) (index : Nat) :
    List Import → Check σ (List TypedImport)
  | [] => return []
  | _ :: rest => do
    match importAt? scope index with
    | some (own, place) =>
      let first ← checkImport env own place
      return first :: (← checkImports env scope (index + 1) rest)
    | none => return []

/-- The types of constructor parameters, resolved where the class stands. -/
def resolveParams (env : CheckEnv σ) (outer : Scope) (id : ContainerId) :
    List ParamDecl → Check σ Unit
  | [] => return ()
  | param :: rest => do
    let type ← resolveType env (visitMember env) outer param.type
    Check.modifyMember ⟨id, param.name⟩ ({ · with type })
    modify fun s => { s with symbols := s.symbols.modify id fun container =>
      { container with params := container.params ++ [⟨param.name, type⟩] } }
    resolveParams env outer id rest

/-- The number of a container nested in another one. -/
def nestedId (id : ContainerId) (name : String) : Check σ ContainerId := do
  return (((← Check.symbols).member? ⟨id, name⟩).bind (·.nested)).getD id

mutual

/-- The types of all constructor parameters of a container and of those nested in it. -/
def resolveContainer (env : CheckEnv σ) (outer : Scope) (id : ContainerId) :
    Container → Check σ Unit
  | .mk _ _ _ _ params members => do
    resolveParams env outer id params
    resolveNested env (containerFrame id members :: outer) id members

/-- The types of all constructor parameters of nested containers. -/
def resolveNested (env : CheckEnv σ) (scope : Scope) (id : ContainerId) :
    List Member → Check σ Unit
  | [] => return ()
  | .container decl :: rest => do
    resolveContainer env scope (← nestedId id decl.name) decl
    resolveNested env scope id rest
  | _ :: rest => resolveNested env scope id rest

end

/-- A member with its checked body. -/
def typedMember? (key : MemberKey) (member : Member) : Check σ (Option TypedMember) := do
  match member, (← get).bodies.lookup key with
  | .val decl, some (.val init) => return some (.val decl key init)
  | .func decl, some (.func locals body) => return some (.func decl key locals body)
  | .foreign decl, some .foreign => return some (.foreign decl key)
  | _, _ => return none

/-- Checks a member and gives its typed form. -/
def checkOwn (env : CheckEnv σ) (key : MemberKey) (member : Member) :
    Check σ (List TypedMember) := do
  visitMember env key
  return (← typedMember? key member).toList

mutual

/-- A container with all its members. -/
def checkContainer (env : CheckEnv σ) (outer : Scope) (id : ContainerId) :
    Container → Check σ TypedContainer
  | .mk span kind name exported params members => do
    let typed ← checkMembers env (containerFrame id members :: outer) id 0 members
    return .mk (.mk span kind name exported params members) id typed

/-- Members in the order they are written; `index` counts the imports passed. -/
def checkMembers (env : CheckEnv σ) (scope : Scope) (id : ContainerId) (index : Nat) :
    List Member → Check σ (List TypedMember)
  | [] => return []
  | .imports _ :: rest => do
    match importAt? scope index with
    | some (own, place) =>
      let first ← checkImport env own place
      return .imports first :: (← checkMembers env scope id (index + 1) rest)
    | none => return []
  | .val decl :: rest => do
    let first ← checkOwn env ⟨id, decl.name⟩ (.val decl)
    return first ++ (← checkMembers env scope id index rest)
  | .func decl :: rest => do
    let first ← checkOwn env ⟨id, decl.name⟩ (.func decl)
    return first ++ (← checkMembers env scope id index rest)
  | .foreign decl :: rest => do
    let first ← checkOwn env ⟨id, decl.name⟩ (.foreign decl)
    return first ++ (← checkMembers env scope id index rest)
  | .container decl :: rest => do
    let first ← checkContainer env scope (← nestedId id decl.name) decl
    return .container first :: (← checkMembers env scope id index rest)
  | .expr span value :: rest => do
    let value ← checkValue env (visitMember env) scope value
    return .expr span value :: (← checkMembers env scope id index rest)

end

/-- The last class that a unit exports. -/
def exportedClass? (items : List (Container × ContainerId)) : Option ContainerId :=
  (items.filter fun (item, _) => item.exported && item.kind = .classKind).getLast?.map (·.2)

/-- A checked unit: its typed tree, and the symbols it leaves. -/
structure CheckedUnit where
  program : TypedProgram
  symbols : Symbols
  containers : List ContainerId

/-- The steps of the check of a unit. -/
def checkProgram (services : Services σ) (table : SymbolTable) (program : Program) :
    Check σ CheckedUnit := do
  let unit : Scope := [importFrame none program.imports]
  let (named, decls) ← declareItems unit [] program.items
  let items := program.items.zip (named.map (·.2))
  modify fun s => { s with progress := decls.map fun (key, _) => (key, {}) }
  let env : CheckEnv σ :=
    { services, globals := table.globals, items := named, decls,
      exportedClass := exportedClass? items }
  for (item, id) in items do
    resolveContainer env unit id item
  let imports ← checkImports env unit 0 program.imports
  let typed ← items.mapM fun (item, id) => checkContainer env unit id item
  return ⟨⟨program.span, imports, typed⟩, ← Check.symbols, named.map (·.2)⟩

end Typing

/-- Checks a unit against the symbols of finished units, which are written in place: they are handed on with
the state of the host, also when the unit is refused. -/
def typecheckInPlace (services : Services σ) (table : SymbolTable) (host : σ) (program : Program) :
    Except TypeError Typing.CheckedUnit × Symbols × σ :=
  match (Typing.checkProgram services table program).run { symbols := table.symbols, host } with
  | .ok checked s => (.ok checked, s.symbols, s.host)
  | .error error s => (.error error, s.symbols, s.host)

/-- What the check of a unit comes to, and the host behind it. -/
def typecheck (services : Services σ) (table : SymbolTable) (host : σ) (program : Program) :
    Except TypeError Typing.CheckedUnit × σ :=
  match typecheckInPlace services table host program with
  | (checked, _, host) => (checked, host)

theorem typecheck_eq (services : Services σ) (table : SymbolTable) (host : σ) (program : Program) :
    typecheck services table host program =
      match (Typing.checkProgram services table program).run { symbols := table.symbols, host } with
      | .ok checked s => (.ok checked, s.host)
      | .error error s => (.error error, s.host) := by
  unfold typecheck typecheckInPlace
  cases (Typing.checkProgram services table program).run { symbols := table.symbols, host } <;> rfl

end ScriptShell
