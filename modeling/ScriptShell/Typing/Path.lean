import ScriptShell.Typing.Scope

/-!
Resolution of names and paths. A name is looked up frame by frame from the inside: first among
the locals, then among the members of the container, then among the named imports from the
last to the first, then among the wildcard imports in the same order; at last among the
top-level containers. What an import binds is resolved from the import's own place, where only
the imports in front of it count, so every lookup ends.
-/
namespace ScriptShell.Typing

variable {σ : Type}

/-- The type of a member, which is checked first if its type is not known yet. -/
def memberType (visit : Visit σ) (key : MemberKey) (member : MemberSymbol) (use : Span) :
    Check σ Ty := do
  match ← Check.progress? key with
  | none => return member.type
  | some own =>
    if !own.typed && own.state = .checking then
      Check.fail use (.recursiveMember member.kind.word member.name)
    if !own.typed then visit key
    return (((← Check.symbols).member? key).map (·.type)).getD .error

/-- The type and meaning of a member that is not a container. A function that is not called
must take no arguments. -/
def memberAccess (visit : Visit σ) (key : MemberKey) (member : MemberSymbol)
    (onThis callee : Bool) (span : Span) : Check σ (Ty × Ref) := do
  let ofClass := ((← Check.symbols).get key.owner).isClass
  let type ← memberType visit key member span
  if member.kind.isCallable && !callee then
    let params := (((← Check.symbols).member? key).map (·.params)).getD []
    if !params.isEmpty then Check.fail span (.missingArguments member.name)
    return (type, .member key ofClass onThis true)
  else return (type, .member key ofClass onThis false)

/-- The member of a container that a bare name stands for. -/
def ownMember (visit : Visit σ) (innermost callee : Bool) (span : Span) (name : String)
    (id : ContainerId) : Check σ (Option TypedExpr) := do
  let container := (← Check.symbols).get id
  match container.find? name with
  | none => return none
  | some member =>
    match member.nested with
    | some nested => return some (.name span (.space nested) name (.container nested))
    | none =>
      if container.isClass && !innermost then
        Check.fail span (.enclosingMember name container.name)
      let (type, ref) ← memberAccess visit ⟨id, name⟩ member container.isClass callee span
      return some (.name span type name ref)

/-- A selection of a member from a typed expression. -/
def select (visit : Visit σ) (span : Span) (object : TypedExpr) (name : String)
    (callee : Bool) : Check σ TypedExpr := do
  match object.type.container? with
  | none => Check.fail span (.noMembers (← Check.text object.type) name)
  | some id =>
    let container := (← Check.symbols).get id
    match container.find? name with
    | none => Check.fail span (.notMember name (← Check.text object.type))
    | some member =>
      match member.nested with
      | some nested => return .select span (.space nested) object name (.container nested)
      | none =>
        if container.isClass && object.type = .space id then
          Check.fail span (.needsInstance name container.name)
        let (type, ref) ← memberAccess visit ⟨id, name⟩ member false callee span
        return .select span type object name ref

/-- Selections one after the other; only the last one may be a callee. -/
def selectAll (visit : Visit σ) (span : Span) (callee : Bool) (object : TypedExpr) :
    List String → Check σ TypedExpr
  | [] => return object
  | name :: rest => do
    let next ← select visit span object name (callee && rest.isEmpty)
    selectAll visit span callee next rest

/-- A name that no frame binds. -/
def globalName (env : CheckEnv σ) (span : Span) (name : String) (callee : Bool) :
    Check σ TypedExpr :=
  match env.items.lookup name <|> env.globals.lookup name with
  | some id => return .name span (.space id) name (.container id)
  | none =>
    if name = "show" then
      if callee then return .name span .str name .builtinShow
      else Check.fail span .showUnapplied
    else Check.fail span (.notFound name)

/-- An import that binds a name by a selector: its path, the member picked, and the imports in
front of it. -/
structure Binding where
  decl : Import
  source : String
  earlier : List ScopedImport

/-- The last import with a selector for a name. -/
def findSelector (name : String) : List ScopedImport → Option Binding
  | [] => none
  | own :: earlier =>
    match own.decl.selectors.find? (·.boundAs = name) with
    | some selector => some ⟨own.decl, selector.name, earlier⟩
    | none => findSelector name earlier

/-- The imports in front of the one that was found. -/
theorem findSelector_suffix {name : String} {imports : List ScopedImport} {found : Binding}
    (h : findSelector name imports = some found) : found.earlier <:+ imports := by
  induction imports with
  | nil => simp [findSelector] at h
  | cons own earlier ih =>
    unfold findSelector at h
    split at h
    · cases h
      exact List.suffix_cons own earlier
    · exact (ih h).trans (List.suffix_cons own earlier)

theorem findSelector_length {name : String} {imports : List ScopedImport} {found : Binding}
    (h : findSelector name imports = some found) : found.earlier.length < imports.length := by
  induction imports with
  | nil => simp [findSelector] at h
  | cons own earlier ih =>
    unfold findSelector at h
    split at h
    · cases h; simp
    · exact Nat.lt_succ_of_lt (ih h)

mutual

/-- What a bare name stands for. `innermost` tells that no container was passed on the way out. -/
def resolveName (env : CheckEnv σ) (visit : Visit σ) (span : Span) (name : String)
    (callee innermost : Bool) (scope : Scope) : Check σ TypedExpr :=
  match scope with
  | [] => globalName env span name callee
  | frame :: outer =>
    match frame.locals.lookup name with
    | some found => return .name span found.type name (.bound found.id)
    | none => do
      let own ← (match frame.container with
        | some id => ownMember visit innermost callee span name id
        | none => return none)
      match own with
      | some found => return found
      | none =>
        match h : findSelector name frame.imports with
        | some found => do
          have := findSelector_length h
          let path ← resolvePath env visit span found.decl.head
            (found.decl.tail ++ [found.source]) callee
            ({ frame with imports := found.earlier } :: outer)
          return .aliased span path.type name path
        | none => do
          match ← resolveWildcard env visit span name callee frame outer frame.imports with
          | some found => return found
          | none =>
            resolveName env visit span name callee (innermost && frame.container.isNone) outer
termination_by 4 * scope.weight + 1
decreasing_by all_goals simp only [Scope.weight]; omega

/-- What a dotted path stands for, all segments reported at one span. -/
def resolvePath (env : CheckEnv σ) (visit : Visit σ) (span : Span) (head : String)
    (tail : List String) (callee : Bool) (scope : Scope) : Check σ TypedExpr := do
  let first ← resolveName env visit span head (callee && tail.isEmpty) true scope
  selectAll visit span callee first tail
termination_by 4 * scope.weight + 2

/-- The path of an import, resolved from its own place. It is resolved once. -/
def importPath (env : CheckEnv σ) (visit : Visit σ) (own : ScopedImport) (scope : Scope) :
    Check σ TypedExpr := do
  match (← get).paths.lookup own.key with
  | some path => return path
  | none =>
    let path ← resolvePath env visit own.decl.span own.decl.head own.decl.tail false scope
    if path.type.container?.isNone then
      Check.fail own.decl.span (.badImportPath own.decl.pathText)
    modify fun s => { s with paths := (own.key, path) :: s.paths }
    return path
termination_by 4 * scope.weight + 3

/-- What a name stands for among the wildcard imports of a frame. -/
def resolveWildcard (env : CheckEnv σ) (visit : Visit σ) (span : Span) (name : String)
    (callee : Bool) (frame : Frame) (outer : Scope) (imports : List ScopedImport) :
    Check σ (Option TypedExpr) :=
  match imports with
  | [] => return none
  | own :: earlier => do
    if own.decl.wildcard then
      let path ← importPath env visit own ({ frame with imports := earlier } :: outer)
      let owner := (path.type.container?.map (← Check.symbols).get).getD {}
      if (owner.find? name).isSome then
        let found ← resolvePath env visit span own.decl.head (own.decl.tail ++ [name]) callee
          ({ frame with imports := earlier } :: outer)
        return some (.aliased span found.type name found)
      else resolveWildcard env visit span name callee frame outer earlier
    else resolveWildcard env visit span name callee frame outer earlier
termination_by 4 * (1 + imports.length + Scope.weight outer)
decreasing_by all_goals simp only [Scope.weight, List.length_cons]; omega

end

/-- The type that a written type stands for. -/
def resolveType (env : CheckEnv σ) (visit : Visit σ) (scope : Scope) (ref : TypeRef) :
    Check σ Ty := do
  match ref.path with
  | ["Int"] => return .int
  | ["Str"] => return .str
  | ["Unit"] => return .unit
  | [] => Check.fail ref.span (.notType ref.text)
  | head :: tail =>
    let path ← resolvePath env visit ref.span head tail false scope
    match path.type with
    | .space id =>
      if ((← Check.symbols).get id).isClass then return .object id
      else Check.fail ref.span (.notType ref.text)
    | _ => Check.fail ref.span (.notType ref.text)

end ScriptShell.Typing
