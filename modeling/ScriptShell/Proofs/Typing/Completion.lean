import ScriptShell.Completion
import ScriptShell.Proofs.Containment.Pieces
import ScriptShell.Proofs.Text.Sorted
import ScriptShell.Proofs.Typing.Units

/-! Completion against the typer. Behind a path, completion offers the members of what the typer takes the path
for, but finds it in a way of its own: the first name is replaced by the path that the preamble binds it to
last, at most eight times over, and what is left is walked from a loaded container. The typer looks each name
up from the place of its import, also among wildcards. Where both take the same imports, they come to the same
container, unless there are too many of them. -/
namespace ScriptShell

open Typing Lexer

/-- The symbols of units that were accepted one after the other. -/
inductive SymbolTable.Committed : SymbolTable → Prop
  | empty : Committed {}
  | unit {σ : Type} {services : Services σ} {host host' : σ} {program : Program}
      (before : Committed table) (accepted : typecheck services table host program = (.ok unit, host')) :
      Committed (table.commit unit.symbols unit.containers)

theorem SymbolTable.Committed.valued {table : SymbolTable} (committed : table.Committed) :
    table.symbols.Valued := by
  induction committed with
  | empty =>
    intro key member found
    simp [Symbols.member?, Symbols.get, ContainerSymbol.find?] at found
  | unit before accepted ih => exact (typecheck_fits accepted).valued ih

/-- Symbols that agree on every container are the same. -/
theorem Symbols.eq_of_get {S T : Symbols} (size : T.containers.size = S.containers.size)
    (same : ∀ id < S.containers.size, T.get id = S.get id) : T = S := by
  have arrays : T.containers = S.containers := by
    apply Array.ext size
    intro id inside small
    have own := same id small
    unfold get at own
    rwa [Array.getD_eq_getD_getElem?, Array.getD_eq_getD_getElem?, Array.getElem?_eq_getElem inside,
      Array.getElem?_eq_getElem small] at own
  cases S
  cases T
  exact congrArg Symbols.mk arrays

namespace Typing

variable {σ : Type} {visit : Visit σ} {s s' t : Checking σ} {member : MemberSymbol}

/-- The members of finished units are known. -/
theorem memberType_idle (idle : s.progress = [])
    (run : memberType visit key member use s = .ok type s') : type = member.type ∧ s' = s := by
  simp only [memberType, Check.bind_ok, Check.progress?_ok, idle, List.lookup_nil] at run
  obtain ⟨_, _, ⟨rfl, rfl⟩, run⟩ := run
  obtain ⟨rfl, rfl⟩ := Check.pure_ok.mp run
  exact ⟨rfl, rfl⟩

theorem memberAccess_idle (idle : s.progress = [])
    (run : memberAccess visit key member onThis callee span s = .ok (type, ref) s') :
    type = member.type ∧ s' = s := by
  simp only [memberAccess, Check.bind_ok, Check.symbols_ok] at run
  obtain ⟨_, _, ⟨rfl, rfl⟩, _, _, read, run⟩ := run
  obtain ⟨rfl, rfl⟩ := memberType_idle idle read
  split at run
  · simp only [Check.bind_ok, Check.symbols_ok, Check.guard_ok, Check.pure_ok, Prod.mk.injEq] at run
    obtain ⟨_, _, ⟨rfl, rfl⟩, -, ⟨rfl, -⟩, rfl⟩ := run
    exact ⟨rfl, rfl⟩
  · simp only [Check.pure_ok, Prod.mk.injEq] at run
    obtain ⟨⟨rfl, -⟩, rfl⟩ := run
    exact ⟨rfl, rfl⟩

end Typing

namespace Completion

variable {σ : Type} {symbols : Symbols} {visit : Visit σ} {s s' t : Checking σ}

theorem walk_append (id : ContainerId) (first second : List String) :
    walk symbols id (first ++ second) = (walk symbols id first).bind (walk symbols · second) := by
  induction first generalizing id with
  | nil => rfl
  | cons name rest ih =>
    simp only [List.cons_append, walk]
    cases symbols.member? ⟨id, name⟩ with
    | none => rfl
    | some member =>
      cases inner : memberContainer member with
      | none => simp [inner]
      | some next => simpa [inner] using ih next

/-- A member leads to what its type or its own container says. -/
theorem memberContainer_plain {member : MemberSymbol} (plain : member.nested = none)
    (valued : member.type.OfMember) : memberContainer member = member.type.container? := by
  unfold memberContainer
  rw [plain]
  cases type : member.type with
  | space id => exact absurd type (valued id)
  | error | int | str | unit | object => rfl

/-- The typer takes a member of a finished unit for what completion walks to. -/
theorem select_walk (idle : s.progress = []) (valued : s.symbols.Valued)
    (run : select visit span object name callee s = .ok typed s') :
    s' = s ∧ ∃ id member, object.type.container? = some id ∧
      s.symbols.member? ⟨id, name⟩ = some member ∧ memberContainer member = typed.type.container? := by
  unfold select at run
  cases holder : object.type.container? with
  | none => simp [holder, Check.bind_ok, Check.fail_ok] at run
  | some id =>
    simp only [holder, Check.bind_ok, Check.symbols_ok] at run
    obtain ⟨_, _, ⟨rfl, rfl⟩, run⟩ := run
    cases sought : (s.symbols.get id).find? name with
    | none => simp [sought, Check.bind_ok, Check.fail_ok] at run
    | some member =>
      have listed : s.symbols.member? ⟨id, name⟩ = some member := sought
      simp only [sought] at run
      cases inner : member.nested with
      | some nested =>
        simp only [inner, Check.pure_ok] at run
        obtain ⟨rfl, rfl⟩ := run
        have own : memberContainer member = some nested := by simp [memberContainer, inner]
        exact ⟨rfl, id, member, rfl, listed, own⟩
      | none =>
        simp only [inner, Check.guard_ok, Check.bind_ok, Check.pure_ok] at run
        obtain ⟨-, ⟨type, ref⟩, t, accessed, rfl, rfl⟩ := run
        obtain ⟨rfl, rfl⟩ := memberAccess_idle idle accessed
        exact ⟨rfl, id, member, rfl, listed, memberContainer_plain inner (valued _ member listed)⟩

theorem selectAll_walk (idle : s.progress = []) (valued : s.symbols.Valued)
    (run : selectAll visit span callee object names s = .ok typed s')
    (leads : typed.type.container? = some found) :
    s' = s ∧ ∃ id, object.type.container? = some id ∧ walk s.symbols id names = some found := by
  induction names generalizing object with
  | nil =>
    obtain ⟨rfl, rfl⟩ := Check.pure_ok.mp run
    exact ⟨rfl, found, leads, rfl⟩
  | cons name rest ih =>
    simp only [selectAll, Check.bind_ok] at run
    obtain ⟨next, t, selected, run⟩ := run
    obtain ⟨rfl, id, member, holder, listed, same⟩ := select_walk idle valued selected
    obtain ⟨rfl, inner, held, walks⟩ := ih run
    exact ⟨rfl, id, holder, by simp [walk, listed, same, held, walks]⟩

/-- The names that an import binds, each with the path it stands for. -/
def boundPaths (decl : Import) : List (String × List String) :=
  decl.selectors.map fun selector => (selector.boundAs, decl.path ++ [selector.name])

/-- The path that the imports of a preamble bind a name to last. -/
def lastPath (name : String) (imports : List Import) : Option (List String) :=
  (imports.flatMap boundPaths).reverse.lookup name

theorem names_add (bindings : Bindings) (decl : Import) :
    (bindings.add decl).names = (boundPaths decl).reverse ++ bindings.names := by
  simp [boundPaths, Bindings.add]

theorem names_imports (imports : List Import) (bindings : Bindings) :
    (imports.foldl Bindings.add bindings).names = (imports.flatMap boundPaths).reverse ++ bindings.names := by
  induction imports generalizing bindings with
  | nil => rfl
  | cons decl rest ih => simp [ih, names_add]

/-- Completion binds each name as the last import of it does. -/
theorem lookup_ofText (read : Compiler.readSource preamble = .ok program) (name : String) :
    (Bindings.ofText preamble).names.lookup name = lastPath name program.imports := by
  simp [Bindings.ofText, read, names_imports, lastPath]

section Chain

variable (env : CheckEnv σ) (span : Span) (imports : List Import) (s : Checking σ)

/-- The typer looks a name up through a number of named imports, each of them the last one of its name in the
whole preamble, and behind them among the loaded containers. -/
inductive Chain : List ScopedImport → String → Nat → Prop
  | loaded (unbound : lastPath head imports = none)
      (wild : ∀ found t, resolveWildcard env (visitMember env) span head false { imports := seen } [] seen s ≠
        .ok (some found) t) : Chain seen head 0
  | named (found : findSelector head seen = some binding)
      (last : lastPath head imports = some (binding.decl.path ++ [binding.source]))
      (further : Chain binding.earlier binding.decl.head count) : Chain seen head (count + 1)

end Chain

/-- A name that no import of a preamble binds is not bound by those in front of a place either. -/
theorem findSelector_none {imports : List Import} {seen : List ScopedImport} {head : String}
    (unbound : lastPath head imports = none) (inside : ∀ own ∈ seen, own.decl ∈ imports) :
    findSelector head seen = none := by
  have free : ∀ decl ∈ imports, ∀ selector ∈ decl.selectors, selector.boundAs ≠ head := by
    intro decl listed selector among same
    rw [lastPath, List.lookup_eq_none_iff] at unbound
    have apart := unbound (selector.boundAs, decl.path ++ [selector.name])
      (List.mem_reverse.mpr (List.mem_flatMap.mpr ⟨decl, listed, List.mem_map_of_mem among⟩))
    simp [same] at apart
  induction seen with
  | nil => rfl
  | cons own earlier ih =>
    rw [List.forall_mem_cons] at inside
    have skipped : own.decl.selectors.find? (·.boundAs = head) = none := by
      simpa using free own.decl inside.1
    rw [findSelector, skipped]
    exact ih inside.2

/-- A check of a unit without members of its own, behind finished units. -/
structure Alone (table : SymbolTable) (env : CheckEnv σ) (s : Checking σ) : Prop where
  items : env.items = []
  decls : env.decls = []
  globals : env.globals = table.globals
  symbols : s.symbols = table.symbols
  ready : s.Consistent env 1

variable {table : SymbolTable} {env : CheckEnv σ} {id found : ContainerId}

theorem Alone.idle (alone : Alone table env s) : s.progress = [] := by
  have keys := alone.ready.keys
  rw [alone.decls] at keys
  exact List.map_eq_nil_iff.mp keys

theorem Alone.visits (alone : Alone table env s) :
    VisitKeeps env s.symbols.containers.size 1 (visitMember env) := by
  have owned : Owned env s.symbols.containers.size := fun key decl listed => by simp [alone.decls] at listed
  simpa [visitMember, alone.decls] using checkMember_keeps owned 1

/-- There is nothing that such a check could change. -/
theorem Alone.advances (alone : Alone table env s)
    (steps : s.Advances env s.symbols.containers.size 1 t) : Alone table env t where
  items := alone.items
  decls := alone.decls
  globals := alone.globals
  symbols := (Symbols.eq_of_get steps.grows.size steps.grows.old).trans alone.symbols
  ready := steps.consistent

theorem Alone.of_name (alone : Alone table env s)
    (run : resolveName env (visitMember env) span name callee innermost scope s = .ok typed t) :
    Alone table env t :=
  alone.advances ((resolve_fits alone.visits).1 _ _ _ _ _ alone.ready run).1

theorem Alone.of_wildcard (alone : Alone table env s)
    (run : resolveWildcard env (visitMember env) span name callee frame outer imports s = .ok picked t) :
    Alone table env t :=
  alone.advances ((resolve_fits alone.visits).2.1 _ _ _ _ _ _ alone.ready run).1

/-- A name that no frame binds is that of a loaded container. -/
theorem globalName_loaded (alone : Alone table env s)
    (run : globalName env span name false s = .ok typed s') :
    s' = s ∧ ∃ id, table.find? name = some id ∧ typed.type.container? = some id := by
  unfold globalName at run
  have sought : (env.items.lookup name <|> env.globals.lookup name) = table.find? name := by
    rw [alone.items, alone.globals]
    rfl
  rw [sought] at run
  cases listed : table.find? name with
  | some id =>
    rw [listed] at run
    obtain ⟨rfl, rfl⟩ := Check.pure_ok.mp run
    exact ⟨rfl, id, rfl, rfl⟩
  | none =>
    rw [listed] at run
    by_cases shown : name = "show" <;> simp [shown, Check.fail_ok] at run

/-- Completion comes where the typer comes, if its bound allows for the imports on the way. The induction is on
the imports that the typer passes; each replaces a name by a path, whose tail is walked in front of the rest. -/
theorem container?_chain {bindings : Bindings} {imports : List Import} {head : String} {count : Nat}
    (binds : ∀ name, bindings.names.lookup name = lastPath name imports) (alone : Alone table env s)
    (valued : table.symbols.Valued) {seen : List ScopedImport}
    (chain : Chain env span imports s seen head count) (inside : ∀ own ∈ seen, own.decl ∈ imports)
    (run : resolveName env (visitMember env) span head false true [{ imports := seen }] s = .ok first t)
    (holder : first.type.container? = some id) (walks : walk table.symbols id tail = some found) (fuel : Nat) :
    container? table bindings fuel (head :: tail) = if count < fuel then some found else none := by
  induction chain generalizing first t id tail fuel with
  | @loaded head seen unbound wild =>
    rw [resolveName_unbound rfl] at run
    simp only [findSelector_none unbound inside, pure_bind] at run
    rw [Check.bind_ok] at run
    obtain ⟨picked, between, looked, run⟩ := run
    cases picked with
    | some other => exact absurd looked (wild other between)
    | none =>
      simp only [resolveName] at run
      obtain ⟨-, own, loaded, same⟩ := globalName_loaded (alone.of_wildcard looked) run
      obtain rfl : own = id := Option.some.inj (same.symm.trans holder)
      cases fuel with
      | zero => rfl
      | succ fuel => simp [container?, binds, unbound, loaded, walks]
  | @named head seen binding count here last further ih =>
    rw [resolveName_unbound rfl] at run
    simp only [here, pure_bind] at run
    rw [Check.bind_ok] at run
    obtain ⟨path, between, resolved, run⟩ := run
    obtain ⟨rfl, rfl⟩ := Check.pure_ok.mp run
    rw [resolvePath, Check.bind_ok] at resolved
    obtain ⟨start, u, looked, selected⟩ := resolved
    have later := alone.of_name looked
    obtain ⟨-, own, held, goes⟩ := selectAll_walk later.idle (later.symbols ▸ valued) selected holder
    -- completion puts the path of the import in front of the rest and walks both at once
    have whole : walk table.symbols own ((binding.decl.tail ++ [binding.source]) ++ tail) = some found := by
      rw [walk_append, ← later.symbols, goes, later.symbols]
      exact walks
    have inner := ih (fun one listed => inside one ((findSelector_suffix here).subset listed)) looked held
      whole
    cases fuel with
    | zero => rfl
    | succ fuel => simpa [container?, binds, last, Import.path] using inner fuel

/-- What stays fixed during the check of a unit that has nothing but a preamble. -/
def preambleEnv (services : Services σ) (table : SymbolTable) : CheckEnv σ :=
  { services, globals := table.globals }

/-- The check of such a unit leaves the symbols as they are. -/
theorem alone_of_checked {services : Services σ} {program : Program} (bare : program.items = [])
    (checked : checkProgram services table program { symbols := table.symbols, host } = .ok unit s) :
    Alone table (preambleEnv services table) s := by
  have start : Alone table (preambleEnv services table) { symbols := table.symbols, host } := by
    have empty : ∀ id, table.symbols.containers.size ≤ id → Bare table.symbols id := by
      intro id outside member listed
      simp [Symbols.get_of_size_le outside] at listed
    exact ⟨rfl, rfl, rfl, rfl, consistent_start (by simp [preambleEnv]) empty⟩
  unfold checkProgram at checked
  simp only [bare, declareItems, pure_bind, List.zip_nil_left, List.map_nil, List.forIn_nil,
    List.mapM_nil, Check.bind_ok, Check.modify_ok, Check.symbols_ok, Check.pure_ok] at checked
  obtain ⟨_, _, rfl, imports, t, imported, _, _, ⟨rfl, rfl⟩, rfl, rfl⟩ := checked
  exact start.advances (checkImports_spec start.visits start.ready imported)

theorem pathBefore_joinPath {path : List String} (some : path ≠ [])
    (words : ∀ segment ∈ path, IsWord segment.toList) :
    pathBefore (joinPath path).toList.reverse = path := by
  have letters : ∀ segment ∈ path, ∀ c ∈ segment.toList, Ascii.isWord c = true :=
    fun segment among => (words segment among).letters
  have apart : ∀ segment ∈ path, '.' ∉ segment.toList := by
    intro segment among dot
    exact absurd (letters segment among _ dot) (by decide)
  have inPath : ∀ c ∈ (joinPath path).toList.reverse, isPathChar c = true := by
    intro c among
    rcases mem_joinPath (List.mem_reverse.mp among) with rfl | ⟨segment, listed, own⟩
    · rfl
    · simp [isPathChar, letters segment listed c own]
  rw [pathBefore, List.takeWhile_eq_self_iff.mpr inPath, List.reverse_reverse,
    Files.splitAt_joinPath some apart]
  simp

/-- Behind a path and a dot all members are offered that have no `$` in their names. -/
theorem complete_behind {path : List String} (some : path ≠ [])
    (words : ∀ segment ∈ path, IsWord segment.toList) (compiler : Compiler) (preamble rest : String) :
    compiler.complete (joinPath path ++ ".").length preamble (joinPath path ++ "." ++ rest) =
      { start := (joinPath path ++ ".").length
        candidates := sortNames ((members compiler.table (Bindings.ofText preamble) path).filter
          fun name => !name.toList.contains '$') } := by
  have before : ((joinPath path ++ "." ++ rest).toList.take (joinPath path ++ ".").length).reverse =
      '.' :: (joinPath path).toList.reverse := by
    rw [String.toList_append, ← String.length_toList, List.take_left]
    simp
  have stops : Ascii.isWord '.' = false := by decide
  have front : (joinPath path).toList.length + 1 = (joinPath path ++ ".").length := by
    rw [String.length_append, String.length_toList]
    rfl
  unfold Compiler.complete
  rw [before]
  simpa [stops, pathBefore_joinPath some words] using front

/-- What the typer takes a path for in a unit that has nothing but a preamble, behind finished units. -/
structure Resolved (services : Services σ) (table : SymbolTable) (preamble : String) (program : Program)
    (s : Checking σ) (span : Span) (head : String) (tail : List String) (path : TypedExpr) : Prop where
  committed : table.Committed
  read : Compiler.readSource preamble = .ok program
  bare : program.items = []
  checked : ∃ host unit,
    checkProgram services table program { symbols := table.symbols, host } = .ok unit s
  resolved : ∃ s', resolvePath (preambleEnv services table) (visitMember (preambleEnv services table))
    span head tail false [importFrame none program.imports] s = .ok path s'

/-- Completion and the typer side by side. -/
theorem Resolved.container? {services : Services σ} {preamble : String} {program : Program} {span : Span}
    {head : String} {tail : List String} {path : TypedExpr}
    (stands : Resolved services table preamble program s span head tail path)
    (leads : path.type.container? = some found)
    (chain : Chain (preambleEnv services table) span program.imports s
      (importFrame none program.imports).imports head count) (fuel : Nat) :
    Completion.container? table (Bindings.ofText preamble) fuel (head :: tail) =
      if count < fuel then some found else none := by
  obtain ⟨host, unit, checked⟩ := stands.checked
  obtain ⟨s', run⟩ := stands.resolved
  have valued := stands.committed.valued
  have alone : Alone table (preambleEnv services table) s := alone_of_checked stands.bare checked
  rw [resolvePath, Check.bind_ok] at run
  obtain ⟨first, t, looked, selected⟩ := run
  have later := alone.of_name looked
  obtain ⟨-, id, holder, walks⟩ := selectAll_walk later.idle (later.symbols ▸ valued) selected leads
  rw [later.symbols] at walks
  have inside : ∀ own ∈ (importFrame none program.imports).imports, own.decl ∈ program.imports :=
    fun own listed => mem_scopedImports (List.mem_reverse.mp listed)
  exact container?_chain (lookup_ofText stands.read) alone valued chain inside looked holder walks fuel

/-- Behind a path and a dot, completion offers the members of what the typer takes the path for, as long as it
follows the same imports, and there are at most eight of them. Behind more of them it offers nothing. -/
theorem complete_agrees {services : Services σ} (compiler : Compiler) {preamble : String} {program : Program}
    {span : Span} {head : String} {tail : List String} {path : TypedExpr}
    (stands : Resolved services compiler.table preamble program s span head tail path)
    (words : ∀ segment ∈ head :: tail, IsWord segment.toList) (leads : path.type.container? = some found)
    (chain : Chain (preambleEnv services compiler.table) span program.imports s
      (importFrame none program.imports).imports head count) (rest : String) :
    let front := joinPath (head :: tail) ++ "."
    let offered := compiler.complete front.length preamble (front ++ rest)
    offered.start = front.length ∧
      (count ≤ 8 → offered.candidates.Pairwise (· < ·) ∧ ∀ name, name ∈ offered.candidates ↔
        '$' ∉ name.toList ∧ ∃ member ∈ (compiler.table.symbols.get found).members, member.name = name) ∧
      (8 < count → offered.candidates = []) := by
  intro front offered
  have whole : offered = _ := complete_behind (by simp) words compiler preamble rest
  have led := stands.container? leads chain maxExpansions
  rw [whole]
  refine ⟨rfl, fun few => ⟨sortNames_increasing _, fun name => ?_⟩, fun many => ?_⟩
  · rw [if_pos (by unfold maxExpansions; omega)] at led
    simp only [mem_sortNames, List.mem_filter, members, led, List.mem_map]
    simp [and_comm]
  · rw [if_neg (by unfold maxExpansions; omega)] at led
    simp [members, led, sortNames]

/-- What the typer takes a name for behind a unit and a preamble, the names of its members, and what completion
offers. -/
def sideBySide (source preamble head : String) : Option (Ty × List String × List String) :=
  match Compiler.readSource source, Compiler.readSource preamble with
  | .ok one, .ok two =>
    match typecheck {} {} () one with
    | (.ok unit, _) =>
      let table := ({} : SymbolTable).commit unit.symbols unit.containers
      match checkProgram {} table two { symbols := table.symbols, host := () } with
      | .ok _ s =>
        let env : CheckEnv Unit := preambleEnv {} table
        match resolvePath env (visitMember env) default head [] false [importFrame none two.imports] s with
        | .ok path _ =>
          let names := ((path.type.container?.map table.symbols.get).getD {}).members.map (·.name)
          let offered := Compiler.complete { table } (head ++ ".").length preamble (head ++ ".")
          if two.items.isEmpty then some (path.type, names, offered.candidates) else none
        | .error _ _ => none
      | .error _ _ => none
    | _ => none
  | _, _ => none

theorem sideBySide_some (compared : sideBySide source preamble head = some (type, names, offered)) :
    ∃ (table : SymbolTable) (program : Program) (s : Checking Unit) (path : TypedExpr),
      Resolved {} table preamble program s default head [] path ∧ path.type = type ∧
      ((type.container?.map table.symbols.get).getD {}).members.map (·.name) = names ∧
      (Compiler.complete { table } (head ++ ".").length preamble (head ++ ".")).candidates = offered := by
  unfold sideBySide at compared
  split at compared
  next one two _ read =>
    split at compared
    next unit host accepted =>
      dsimp only at compared
      split at compared
      next done s checked =>
        split at compared
        next path t resolved =>
          split at compared
          next bare =>
            simp only [Option.some.injEq, Prod.mk.injEq] at compared
            obtain ⟨rfl, rfl, rfl⟩ := compared
            have stands : Resolved {} _ preamble two s default head [] path :=
              ⟨.unit .empty accepted, read, List.isEmpty_iff.mp bare, ⟨(), done, checked⟩, t, resolved⟩
            exact ⟨_, two, s, path, stands, rfl, rfl, rfl⟩
          next => cases compared
        next => cases compared
      next => cases compared
    next => cases compared
  next => cases compared

/-- A class whose objects hand out themselves, and a module with two of them, one under the module's name. -/
def sampleUnit : String :=
  "class C \x7b\ndef self(): C = this\nval n$ = 1\n\x7d\n" ++ "module M \x7b\nval c = new C\nval M = new C\n\x7d\n"

/-- Imports of which each picks what the one in front of it binds. -/
def renamed (count : Nat) : Ledger where
  entries := { name := "c1", source := "c", path := "M" } :: (List.range (count - 1)).map fun i =>
    { name := "c" ++ toString (i + 2), source := "self", path := "c" ++ toString (i + 1) }

/-- The names `c2` and `c1` are found one behind the other. -/
def findsTwo (program : Program) : Bool :=
  match findSelector "c2" (importFrame none program.imports).imports with
  | some second =>
    match findSelector second.decl.head second.earlier with
    | some first => first.earlier.isEmpty &&
        lastPath "c2" program.imports = some (second.decl.path ++ [second.source]) &&
        lastPath second.decl.head program.imports = some (first.decl.path ++ [first.source]) &&
        lastPath first.decl.head program.imports = none
    | none => false
  | none => false

theorem chain_of_findsTwo {program : Program} {span : Span} (finds : findsTwo program = true) :
    Chain env span program.imports s (importFrame none program.imports).imports "c2" 2 := by
  unfold findsTwo at finds
  split at finds
  next second found =>
    split at finds
    next first before =>
      simp only [Bool.and_eq_true, decide_eq_true_eq, List.isEmpty_iff] at finds
      obtain ⟨⟨⟨foremost, last⟩, inner⟩, unbound⟩ := finds
      refine .named found last (.named before inner (.loaded unbound ?_))
      intro other t loaded
      rw [foremost, resolveWildcard] at loaded
      cases loaded
    next => cases finds
  next => cases finds

/-- The second of two renamed imports. -/
theorem complete_agrees_of_two : ∃ (table : SymbolTable) (program : Program) (s : Checking Unit)
      (path : TypedExpr),
    Resolved {} table (renamed 2).block program s default "c2" [] path ∧ path.type.container? = some 0 ∧
    Chain (preambleEnv {} table) default program.imports s (importFrame none program.imports).imports
      "c2" 2 ∧
    (Compiler.complete { table } 3 (renamed 2).block "c2.").start = 3 ∧
    ∀ name, name ∈ (Compiler.complete { table } 3 (renamed 2).block "c2.").candidates ↔
      '$' ∉ name.toList ∧ name ∈ ["self", "n$"] := by
  have compared : sideBySide sampleUnit (renamed 2).block "c2" =
      some (.object 0, ["self", "n$"], ["self"]) := by decide +kernel
  have finds : (Compiler.readSource (renamed 2).block).toOption.any findsTwo = true := by decide +kernel
  obtain ⟨table, program, s, path, stands, type, names, -⟩ := sideBySide_some compared
  rw [stands.read] at finds
  have leads : path.type.container? = some 0 := by rw [type]; rfl
  have chain : Chain (preambleEnv {} table) default program.imports s _ "c2" 2 := chain_of_findsTwo finds
  have words : ∀ segment ∈ ["c2"], IsWord segment.toList := by decide
  obtain ⟨start, offers, -⟩ := complete_agrees { table } stands words leads chain ""
  refine ⟨table, program, s, path, stands, leads, chain, start, fun name => ?_⟩
  rw [← names, List.mem_map]
  exact (offers (by decide)).2 name

/-- The typer takes a name for an object, and completion offers none of its members. -/
def Overlooked (ledger : Ledger) (head : String) : Prop :=
  ∃ (table : SymbolTable) (program : Program) (s : Checking Unit) (path : TypedExpr) (id : ContainerId),
    Resolved {} table ledger.block program s default head [] path ∧ path.type = .object id ∧
    (∃ member ∈ (table.symbols.get id).members, '$' ∉ member.name.toList) ∧
    (Compiler.complete { table } (head ++ ".").length ledger.block (head ++ ".")).candidates = []

theorem overlooked_of_sideBySide {ledger : Ledger} {head : String}
    (missed : sideBySide sampleUnit ledger.block head = some (.object 0, ["self", "n$"], [])) :
    Overlooked ledger head := by
  obtain ⟨table, program, s, path, stands, type, names, nothing⟩ := sideBySide_some missed
  have members : (table.symbols.get 0).members.map (·.name) = ["self", "n$"] := names
  obtain ⟨member, among, named⟩ : ∃ member ∈ (table.symbols.get 0).members, member.name = "self" := by
    rw [← List.mem_map, members]
    exact List.mem_cons_self
  refine ⟨table, program, s, path, 0, stands, type, ⟨member, among, ?_⟩, nothing⟩
  rw [named]
  decide

/-- Nothing is offered behind nine named imports, behind a wildcard, and behind an import of a name from the
module of that name. -/
theorem completion_falls_short :
    Overlooked (renamed 9) "c9" ∧ Overlooked ⟨[.all "M"]⟩ "c" ∧
      Overlooked ⟨[{ name := "M", source := "M", path := "M" }]⟩ "M" := by
  refine ⟨overlooked_of_sideBySide ?_, overlooked_of_sideBySide ?_, overlooked_of_sideBySide ?_⟩
  all_goals decide +kernel

end Completion

end ScriptShell
