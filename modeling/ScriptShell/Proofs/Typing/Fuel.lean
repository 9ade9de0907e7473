import ScriptShell.Proofs.Typing.Agreement

/-! The fuel of a check. Lookups follow imports towards the outside and need no fuel. A member that another
one needs is checked first, and so on, and this nesting is what the fuel bounds. Every visit on the way marks
its member as begun, so fewer members wait inside it than outside. The check therefore never gets to the
bottom of its fuel: whatever stands there, and however much fuel is added, the check of a unit is the same. -/
namespace ScriptShell

variable {σ : Type}

namespace Typing

open Check

/-! The check of a unit, with the visits to members as a parameter. -/

section

variable (env : CheckEnv σ) (visit : Visit σ)

/-- Checks a member unless that is done, where `visit` checks the members it needs. -/
def visitOnce : Visit σ := fun key => do
  match env.decls.lookup key, ← Check.progress? key with
  | some decl, some own =>
    if own.state = .pending then
      Check.setProgress key ⟨.checking, own.typed⟩
      checkPending env visit key decl
      Check.setProgress key ⟨.done, true⟩
  | _, _ => return ()

/-- Visits that nest a number of times; the ones inside them are `visit`. -/
def visitWithin : Nat → Visit σ
  | 0 => visit
  | fuel + 1 => visitOnce env (visitWithin fuel)

/-- An import: its path, and the members it picks, which must be there. -/
def checkImportWith (own : ScopedImport) (scope : Scope) : Check σ TypedImport := do
  let path ← importPath env visit own scope
  let symbols ← Check.symbols
  let target := (path.type.container?.map symbols.get).getD {}
  let implicits ← own.decl.selectors.mapM fun selector =>
    match target.find? selector.name with
    | some member => return member.implicit
    | none => Check.fail own.decl.span (.notMember selector.name own.decl.pathText)
  let (text, relative) := exportPath symbols env.exportedClass path
  return ⟨own.decl, implicits, text, relative⟩

/-- Imports of a frame from a number on, in the order they are written. -/
def checkImportsWith (scope : Scope) (index : Nat) : List Import → Check σ (List TypedImport)
  | [] => return []
  | _ :: rest => do
    match importAt? scope index with
    | some (own, place) =>
      let first ← checkImportWith env visit own place
      return first :: (← checkImportsWith scope (index + 1) rest)
    | none => return []

/-- The types of constructor parameters, resolved where the class stands. -/
def resolveParamsWith (outer : Scope) (id : ContainerId) : List ParamDecl → Check σ Unit
  | [] => return ()
  | param :: rest => do
    let type ← resolveType env visit outer param.type
    Check.modifyMember ⟨id, param.name⟩ ({ · with type })
    modify fun s => { s with symbols := s.symbols.modify id fun container =>
      { container with params := container.params ++ [⟨param.name, type⟩] } }
    resolveParamsWith outer id rest

mutual

/-- The types of all constructor parameters of a container and of those nested in it. -/
def resolveContainerWith (outer : Scope) (id : ContainerId) : Container → Check σ Unit
  | .mk _ _ _ _ params members => do
    resolveParamsWith env visit outer id params
    resolveNestedWith (containerFrame id members :: outer) id members

/-- The types of all constructor parameters of nested containers. -/
def resolveNestedWith (scope : Scope) (id : ContainerId) : List Member → Check σ Unit
  | [] => return ()
  | .container decl :: rest => do
    resolveContainerWith scope (← nestedId id decl.name) decl
    resolveNestedWith scope id rest
  | _ :: rest => resolveNestedWith scope id rest

end

/-- Checks a member and gives its typed form. -/
def checkOwnWith (key : MemberKey) (member : Member) : Check σ (List TypedMember) := do
  visit key
  return (← typedMember? key member).toList

mutual

/-- A container with all its members. -/
def checkContainerWith (outer : Scope) (id : ContainerId) : Container → Check σ TypedContainer
  | .mk span kind name exported params members => do
    let typed ← checkMembersWith (containerFrame id members :: outer) id 0 members
    return .mk (.mk span kind name exported params members) id typed

/-- Members in the order they are written; `index` counts the imports passed. -/
def checkMembersWith (scope : Scope) (id : ContainerId) (index : Nat) :
    List Member → Check σ (List TypedMember)
  | [] => return []
  | .imports _ :: rest => do
    match importAt? scope index with
    | some (own, place) =>
      let first ← checkImportWith env visit own place
      return .imports first :: (← checkMembersWith scope id (index + 1) rest)
    | none => return []
  | .val decl :: rest => do
    let first ← checkOwnWith visit ⟨id, decl.name⟩ (.val decl)
    return first ++ (← checkMembersWith scope id index rest)
  | .func decl :: rest => do
    let first ← checkOwnWith visit ⟨id, decl.name⟩ (.func decl)
    return first ++ (← checkMembersWith scope id index rest)
  | .foreign decl :: rest => do
    let first ← checkOwnWith visit ⟨id, decl.name⟩ (.foreign decl)
    return first ++ (← checkMembersWith scope id index rest)
  | .container decl :: rest => do
    let first ← checkContainerWith scope (← nestedId id decl.name) decl
    return .container first :: (← checkMembersWith scope id index rest)
  | .expr span value :: rest => do
    let value ← checkValue env visit scope value
    return .expr span value :: (← checkMembersWith scope id index rest)

end

/-- The steps of the check of a unit behind the declaration of its containers. -/
def checkDeclaredWith (program : Program) (named : List (String × ContainerId)) : Check σ CheckedUnit := do
  let unit : Scope := [importFrame none program.imports]
  let items := program.items.zip (named.map (·.2))
  for (item, id) in items do
    resolveContainerWith env visit unit id item
  let imports ← checkImportsWith env visit unit 0 program.imports
  let typed ← items.mapM fun (item, id) => checkContainerWith env visit unit id item
  return ⟨⟨program.span, imports, typed⟩, ← Check.symbols, named.map (·.2)⟩

end

/-- The steps of the check of a unit, where the environment tells how members are visited. -/
def checkProgramWith (visits : CheckEnv σ → Visit σ) (services : Services σ) (table : SymbolTable)
    (program : Program) : Check σ CheckedUnit := do
  let (named, decls) ← declareItems [importFrame none program.imports] [] program.items
  modify fun s => { s with progress := decls.map fun (key, _) => (key, {}) }
  let env : CheckEnv σ :=
    { services, globals := table.globals, items := named, decls,
      exportedClass := exportedClass? (program.items.zip (named.map (·.2))) }
  checkDeclaredWith env (visits env) program named

end Typing

/-- Checks a unit where the environment tells how members are visited. -/
def typecheckWith (visits : CheckEnv σ → Visit σ) (services : Services σ)
    (table : SymbolTable) (host : σ) (program : Program) : Except TypeError Typing.CheckedUnit × σ :=
  match (Typing.checkProgramWith visits services table program).run { symbols := table.symbols, host } with
  | .ok checked s => (.ok checked, s.host)
  | .error error s => (.error error, s.host)

namespace Typing

open Check

variable {services : Services σ} {ours : ContainerId → Prop} {env : CheckEnv σ} {visit : Visit σ}
  {P : Checking σ → Prop}

section

variable (visits : ∀ key, Agree P (visitMember env key) (visit key)) (stable : services.Stable ours P)
include visits stable

theorem agree_checkImport (own : ScopedImport) (scope : Scope) :
    Agree P (checkImport env own scope) (checkImportWith env visit own scope) := by
  refine agree_bind ((agree_resolve visits stable env).2.2.2 own scope) fun path => ?_
  refine agree_bind agree_symbols fun symbols => ?_
  refine agree_bind (agree_mapM fun selector => ?_) fun _ => agree_pure _
  cases ((path.type.container?.map symbols.get).getD {}).find? selector.name with
  | some member => exact agree_pure _
  | none => exact agree_fail _ _

theorem agree_checkImports (scope : Scope) (index : Nat) (imports : List Import) :
    Agree P (checkImports env scope index imports) (checkImportsWith env visit scope index imports) := by
  induction imports generalizing index with
  | nil => exact agree_pure _
  | cons first rest ih =>
    unfold checkImports checkImportsWith
    cases importAt? scope index with
    | some found =>
      refine agree_bind (agree_checkImport visits stable _ _) fun _ => ?_
      exact agree_bind (ih _) fun _ => agree_pure _
    | none => exact agree_pure _

theorem agree_resolveParams (outer : Scope) {id : ContainerId} (owned : ours id) (params : List ParamDecl) :
    Agree P (resolveParams env outer id params) (resolveParamsWith env visit outer id params) := by
  induction params with
  | nil => exact agree_pure _
  | cons param rest ih =>
    refine agree_bind (agree_resolveType visits stable _ _) fun type => ?_
    refine agree_bind (agree_modifyMember stable owned fun _ => rfl) fun _ => ?_
    refine agree_bind (agree_modify fun s holds => stable.symbols holds ?_ ?_) fun _ => ih
    · exact s.symbols.shape_modify id fun _ => rfl
    · intro other foreign
      have differs : id ≠ other := fun same => foreign (same ▸ owned)
      exact Symbols.get_modify_other differs _

omit visits in
theorem agree_nestedId {α : Type} {id : ContainerId} (owned : ours id) (name : String)
    {f g : ContainerId → Check σ α} (further : ∀ nested, ours nested → Agree P (f nested) (g nested)) :
    Agree P (nestedId id name >>= f) (nestedId id name >>= g) :=
  fun s holds => further _ (stable.nested holds owned) s holds

omit visits stable in
theorem keeps_nestedId (id : ContainerId) (name : String) : Keeps P (nestedId id name : Check σ _) :=
  agree_bind agree_symbols fun _ => agree_pure _

set_option linter.unusedSectionVars false in
mutual

theorem agree_resolveContainer (outer : Scope) {id : ContainerId} (owned : ours id) (item : Container) :
    Agree P (resolveContainer env outer id item) (resolveContainerWith env visit outer id item) := by
  cases item with
  | mk span kind name exported params members =>
    rw [resolveContainer, resolveContainerWith]
    refine agree_bind (agree_resolveParams visits stable _ owned _) fun _ => ?_
    exact agree_resolveNested _ owned members

theorem agree_resolveNested (scope : Scope) {id : ContainerId} (owned : ours id) (members : List Member) :
    Agree P (resolveNested env scope id members) (resolveNestedWith env visit scope id members) := by
  cases members with
  | nil =>
    rw [resolveNested, resolveNestedWith]
    exact agree_pure _
  | cons first rest =>
    have others := agree_resolveNested scope owned rest
    cases first with
    | container decl =>
      rw [resolveNested, resolveNestedWith]
      refine agree_nestedId stable owned _ fun nested inside => ?_
      exact agree_bind (agree_resolveContainer _ inside decl) fun _ => others
    | imports _ | val _ | func _ | foreign _ | expr _ _ =>
      rw [resolveNested, resolveNestedWith]
      · exact others
      all_goals
        intro decl impossible
        cases impossible

end

omit visits stable in
theorem agree_typedMember? (key : MemberKey) (member : Member) :
    Keeps P (typedMember? key member : Check σ _) := by
  refine agree_bind agree_get fun s => ?_
  split <;> exact agree_pure _

omit stable in
theorem agree_checkOwn (key : MemberKey) (member : Member) :
    Agree P (checkOwn env key member) (checkOwnWith visit key member) := by
  refine agree_bind (visits key) fun _ => ?_
  exact agree_bind (agree_typedMember? key member) fun _ => agree_pure _

set_option linter.unusedSectionVars false in
mutual

theorem agree_checkContainer (outer : Scope) (id : ContainerId) (item : Container) :
    Agree P (checkContainer env outer id item) (checkContainerWith env visit outer id item) := by
  cases item with
  | mk span kind name exported params members =>
    rw [checkContainer, checkContainerWith]
    exact agree_bind (agree_checkMembers _ _ _ members) fun _ => agree_pure _

theorem agree_checkMembers (scope : Scope) (id : ContainerId) (index : Nat) (members : List Member) :
    Agree P (checkMembers env scope id index members)
      (checkMembersWith env visit scope id index members) := by
  cases members with
  | nil =>
    rw [checkMembers, checkMembersWith]
    exact agree_pure _
  | cons first rest =>
    have others (index : Nat) := agree_checkMembers scope id index rest
    cases first with
    | imports decl =>
      rw [checkMembers, checkMembersWith]
      cases importAt? scope index with
      | some found =>
        refine agree_bind (agree_checkImport visits stable _ _) fun _ => ?_
        exact agree_bind (others _) fun _ => agree_pure _
      | none => exact agree_pure _
    | val decl | func decl | foreign decl =>
      rw [checkMembers, checkMembersWith]
      refine agree_bind (agree_checkOwn visits _ _) fun _ => ?_
      exact agree_bind (others _) fun _ => agree_pure _
    | container decl =>
      rw [checkMembers, checkMembersWith]
      refine agree_bind (keeps_nestedId _ _) fun nested => ?_
      refine agree_bind (agree_checkContainer _ _ decl) fun _ => ?_
      exact agree_bind (others _) fun _ => agree_pure _
    | expr span value =>
      rw [checkMembers, checkMembersWith]
      refine agree_bind (agree_checkValue visits stable _ _) fun _ => ?_
      exact agree_bind (others _) fun _ => agree_pure _

end

theorem agree_checkDeclared (program : Program) {named : List (String × ContainerId)}
    (owned : ∀ item ∈ named, ours item.2) :
    Agree P (do
      for (item, id) in program.items.zip (named.map (·.2)) do
        resolveContainer env [importFrame none program.imports] id item
      let imports ← checkImports env [importFrame none program.imports] 0 program.imports
      let typed ← (program.items.zip (named.map (·.2))).mapM fun (item, id) =>
        checkContainer env [importFrame none program.imports] id item
      return ⟨⟨program.span, imports, typed⟩, ← Check.symbols, named.map (·.2)⟩)
      (checkDeclaredWith env visit program named) := by
  refine agree_bind (agree_forInMem (fun item listed _ => ?_) _) fun _ => ?_
  · obtain ⟨own, there, same⟩ := List.mem_map.mp (List.of_mem_zip listed).2
    exact agree_bind (agree_resolveContainer visits stable _ (same ▸ owned own there) _) fun _ => agree_pure _
  · refine agree_bind (agree_checkImports visits stable _ _ _) fun _ => ?_
    refine agree_bind (agree_mapM fun item => agree_checkContainer visits stable _ _ _) fun _ => ?_
    exact agree_bind agree_symbols fun _ => agree_pure _

end

/-- A visit looks up what it is to check and how far that is. -/
theorem visitOnce_eq (key : MemberKey) (s : Checking σ) :
    visitOnce env visit key s =
      (match env.decls.lookup key, s.progress.lookup key with
        | some decl, some own => if own.state = .pending then do
            Check.setProgress key ⟨.checking, own.typed⟩
            checkPending env visit key decl
            Check.setProgress key ⟨.done, true⟩
          else pure ()
        | _, _ => pure () : Check σ Unit) s := rfl

theorem visitOnce_begins {key : MemberKey} {decl : PendingDecl} {own : Progress} {s : Checking σ}
    (listed : env.decls.lookup key = some decl) (present : s.progress.lookup key = some own)
    (pending : own.state = .pending) :
    visitOnce env visit key s =
      (checkPending env visit key decl >>= fun _ => Check.setProgress key ⟨.done, true⟩)
        (s.mark key ⟨.checking, own.typed⟩) := by
  rw [visitOnce_eq, listed, present]
  simp only [pending, if_true]
  rfl

theorem visitOnce_rests {key : MemberKey} {s : Checking σ}
    (begun : ∀ decl own, env.decls.lookup key = some decl → s.progress.lookup key = some own →
      own.state ≠ .pending) : visitOnce env visit key s = .ok () s := by
  rw [visitOnce_eq]
  cases listed : env.decls.lookup key with
  | none => rfl
  | some decl =>
    cases present : s.progress.lookup key with
    | none => rfl
    | some own =>
      simp only [begun decl own listed present, if_false]
      rfl

/-- A visit agrees with another if the visits inside it do. What holds outside a visit may be more than what
holds inside, where its member is begun. -/
theorem agree_visitOnce {Q : Checking σ → Prop} {other : Visit σ}
    (visits : ∀ key, Agree Q (visit key) (other key)) (inside : services.Stable ours Q)
    (same : env.services = services)
    (owned : ∀ key decl, env.decls.lookup key = some decl → ours key.owner)
    (leave : ∀ {s}, Q s → P s)
    (enter : ∀ {s key own}, P s → s.progress.lookup key = some own → own.state = .pending →
      Q (s.mark key ⟨.checking, own.typed⟩))
    (key : MemberKey) : Agree P (visitOnce env visit key) (visitOnce env other key) := by
  intro s holds
  by_cases begins : ∃ decl own, env.decls.lookup key = some decl ∧ s.progress.lookup key = some own ∧
      own.state = .pending
  · obtain ⟨decl, own, listed, present, pending⟩ := begins
    have body : Agree Q (checkPending env visit key decl >>= fun _ => Check.setProgress key ⟨.done, true⟩)
        (checkPending env other key decl >>= fun _ => Check.setProgress key ⟨.done, true⟩) :=
      agree_bind (agree_checkPending visits inside same (owned key decl listed) decl) fun _ =>
        agree_setProgress inside (by simp)
    obtain ⟨equal, kept⟩ := body _ (enter holds present pending)
    rw [visitOnce_begins listed present pending, visitOnce_begins listed present pending]
    exact ⟨equal, leave kept⟩
  · have begun : ∀ decl own, env.decls.lookup key = some decl → s.progress.lookup key = some own →
        own.state ≠ .pending :=
      fun decl own listed present pending => begins ⟨decl, own, listed, present, pending⟩
    rw [visitOnce_rests begun, visitOnce_rests begun]
    exact ⟨rfl, holds⟩

/-- What every single step of a check keeps, the check of a member keeps. -/
theorem keeps_checkMember (stable : services.Stable ours P) (same : env.services = services)
    (owned : ∀ key decl, env.decls.lookup key = some decl → ours key.owner) (fuel : Nat)
    (key : MemberKey) : Keeps P (checkMember env fuel key) := by
  induction fuel generalizing key with
  | zero => exact agree_pure _
  | succ fuel ih => exact agree_visitOnce ih stable same owned id (fun holds _ _ => stable.mark holds (by simp)) key

/-- At most so many members wait, less one. -/
def Waiting (bound : Nat) (s : Checking σ) : Prop := s.pendingCount < bound

theorem waiting_stable (services : Services σ) (bound : Nat) : services.Stable (fun _ => True) (Waiting bound) where
  symbols fewer _ _ := fewer
  nested _ _ := trivial
  mark fewer begun := Nat.lt_of_le_of_lt (Checking.pendingCount_mark begun) fewer
  path _ _ fewer := fewer
  body fewer := fewer
  fresh fewer := fewer
  evaluate _ _ _ _ _ fewer := fewer
  visible _ _ _ _ fewer := fewer

/-- The induction is on the fuel, which more members than wait have room in. -/
theorem agree_visitWithin (extra fuel : Nat) (key : MemberKey) :
    Agree (Waiting fuel) (checkMember env fuel key) (visitWithin env visit (fuel + extra) key) := by
  induction fuel generalizing key with
  | zero =>
    intro s none
    exact absurd none (Nat.not_lt_zero _)
  | succ fuel ih =>
    rw [Nat.succ_add]
    refine agree_visitOnce ih (waiting_stable _ fuel) rfl (fun _ _ _ => trivial) Nat.lt_succ_of_lt ?_ key
    intro s key own fewer waiting pending
    exact Nat.lt_of_lt_of_le (Checking.pendingCount_mark_lt (by simp) waiting pending)
      (Nat.le_of_lt_succ fewer)

theorem checkProgramWith_eq {visits : CheckEnv σ → Visit σ}
    (agree : ∀ env key, Agree (Waiting (env.decls.length + 1)) (visitMember env key) (visits env key))
    (services : Services σ) (table : SymbolTable) (program : Program) :
    checkProgramWith visits services table program = checkProgram services table program := by
  refine congrArg (declareItems [importFrame none program.imports] [] program.items >>= ·) ?_
  funext ⟨named, decls⟩ s
  refine (agree_checkDeclared (agree _) (waiting_stable services _) program (fun _ _ => trivial) _ ?_).1.symm
  unfold Waiting Checking.pendingCount
  refine Nat.lt_succ_of_le (Nat.le_trans List.countP_le_length ?_)
  exact Nat.le_of_eq (List.length_map _)

end Typing

theorem typecheckWith_eq {visits : CheckEnv σ → Visit σ}
    (agree : ∀ env key, Check.Agree (Typing.Waiting (env.decls.length + 1)) (Typing.visitMember env key)
      (visits env key)) (services : Services σ) (table : SymbolTable) (host : σ) (program : Program) :
    typecheckWith visits services table host program = typecheck services table host program := by
  have same := Typing.checkProgramWith_eq agree services table program
  rw [typecheck_eq]
  unfold typecheckWith
  exact same ▸ rfl

/-- Visits that answer without any fuel, if there are such, make the same check of a unit. -/
theorem typecheckWith_unbounded {visits : CheckEnv σ → Visit σ}
    (unbounded : ∀ env, visits env = Typing.visitOnce env (visits env)) (services : Services σ)
    (table : SymbolTable) (host : σ) (program : Program) :
    typecheckWith visits services table host program = typecheck services table host program := by
  have nested (env : CheckEnv σ) (fuel : Nat) : Typing.visitWithin env (visits env) fuel = visits env := by
    induction fuel with
    | zero => rfl
    | succ fuel ih =>
      rw [Typing.visitWithin, ih]
      exact (unbounded env).symm
  refine typecheckWith_eq (fun env key => ?_) services table host program
  exact nested env _ ▸ Typing.agree_visitWithin 0 _ key

/-- However the visits at the bottom of the fuel answer, and however much fuel is added, the check of a unit
is the same: it ends with a result or an error before the fuel does. -/
theorem typecheck_ends (services : Services σ) (table : SymbolTable) (host : σ) (program : Program)
    (bottom : CheckEnv σ → Visit σ) (extra : Nat) :
    typecheckWith (fun env => Typing.visitWithin env (bottom env) (env.decls.length + 1 + extra)) services
      table host program = typecheck services table host program :=
  typecheckWith_eq (fun _ key => Typing.agree_visitWithin extra _ key) services table host program

end ScriptShell
