import ScriptShell.Proofs.Containment.Words
import ScriptShell.Proofs.Order.Places

/-!
The paths of imports. What an import path stands for is spelled with words: the path of a container that
is known by its number, or a name, and further names behind it. So the text under which later units find it
is a list of words with dots between them, and an import of such a text can be written down.
-/
namespace ScriptShell

open Lexer

/-- Words with dots between them. -/
def Dotted (text : String) : Prop :=
  ∃ segments, segments ≠ [] ∧ (∀ segment ∈ segments, IsWord segment.toList) ∧ text = joinPath segments

theorem joinPath_append {first second : List String} (some : first ≠ []) (more : second ≠ []) :
    joinPath (first ++ second) = joinPath first ++ "." ++ joinPath second := by
  unfold joinPath
  induction first with
  | nil => exact absurd rfl some
  | cons segment rest ih =>
    obtain ⟨other, others, rfl⟩ := List.exists_cons_of_ne_nil more
    cases rest with
    | nil => rfl
    | cons next rest =>
      simp only [List.cons_append, joinWith] at ih ⊢
      rw [ih (by simp)]
      simp only [String.append_assoc]

theorem Dotted.word {word : String} (h : IsWord word.toList) : Dotted word :=
  ⟨[word], by simp, by simpa using h, rfl⟩

theorem Dotted.append {first second : String} (h : Dotted first) (k : Dotted second) :
    Dotted (first ++ "." ++ second) := by
  obtain ⟨segments, some, words, rfl⟩ := h
  obtain ⟨others, more, further, rfl⟩ := k
  refine ⟨segments ++ others, by simp [some], ?_, (joinPath_append some more).symm⟩
  intro segment mem
  exact (List.mem_append.mp mem).elim (words segment) (further segment)

namespace Symbols

variable {S T : Symbols}

/-- The containers have paths made of words, and nothing is nested in them that is not there. -/
def Spelled (S : Symbols) : Prop :=
  ∀ id < S.containers.size, Dotted (S.get id).qualified ∧
    ∀ member ∈ (S.get id).members, ∀ n ∈ member.nested, n < S.containers.size

theorem Spelled.of_shape (spelled : S.Spelled) (same : T.shape = S.shape) : T.Spelled := by
  intro id small
  rw [size_of_shape same] at small
  have shape := get_eq_of_shape same id
  obtain ⟨path, nested⟩ := spelled id small
  refine ⟨by rwa [ContainerSymbol.qualified_eq_of_shape shape], fun member listed n inner => ?_⟩
  have there : member.shape ∈ (S.get id).members.map (·.shape) := by
    rw [← ContainerSymbol.members_eq_of_shape shape]
    exact List.mem_map_of_mem listed
  obtain ⟨before, declared, shaped⟩ := List.mem_map.mp there
  rw [size_of_shape same]
  exact nested before declared n (MemberSymbol.nested_eq_of_shape shaped ▸ inner)

theorem Spelled.nested (spelled : S.Spelled) {key : MemberKey} {member : MemberSymbol}
    (found : S.member? key = some member) {n : ContainerId} (inner : member.nested = some n) :
    n < S.containers.size :=
  (spelled _ (inside_of_member? found)).2 member (List.mem_of_find?_eq_some found) n inner

end Symbols

/-- A path made of words, that starts at a name or at a container that is there. -/
inductive Symbols.Spells (S : Symbols) : TypedExpr → Prop where
  | bound {id : LocalId} (word : IsWord name.toList) : Spells S (.name span type name (.bound id))
  | builtinShow (word : IsWord name.toList) : Spells S (.name span type name .builtinShow)
  | container {id : ContainerId} (inside : id < S.containers.size) :
      Spells S (.name span type name (.container id))
  | member {key : MemberKey} (inside : key.owner < S.containers.size) (word : IsWord name.toList) :
      Spells S (.name span type name (.member key ofClass onThis auto))
  | select (object : Spells S target) (word : IsWord name.toList) :
      Spells S (.select span type target name ref)
  | aliased (path : Spells S target) : Spells S (.aliased span type name target)

theorem Symbols.Spells.of_shape {S T : Symbols} {path : TypedExpr} (own : S.Spells path)
    (same : T.shape = S.shape) : T.Spells path := by
  have size := size_of_shape same
  induction own with
  | bound word => exact .bound word
  | builtinShow word => exact .builtinShow word
  | container inside => exact .container (size ▸ inside)
  | member inside word => exact .member (size ▸ inside) word
  | select _ word ih => exact .select ih word
  | aliased _ ih => exact .aliased ih

namespace Typing

open Checking

variable {σ : Type} {env : CheckEnv σ} {base bound : Nat} {visit : Visit σ} {s s' : Checking σ} {S : Symbols}

/-- The text of a path made of words is made of words. -/
theorem exportPath_dotted (spelled : S.Spelled) (exported : Option ContainerId) {path : TypedExpr}
    (own : S.Spells path) : Dotted (exportPath S exported path).1 := by
  induction own with
  | bound word => exact .word word
  | builtinShow word => exact .word word
  | container inside => exact (spelled _ inside).1
  | @member _ _ _ ofClass _ _ key inside word =>
    cases ofClass with
    | true => exact .word word
    | false => exact (spelled _ inside).1.append (.word word)
  | select object word ih => exact ih.append (.word word)
  | aliased path ih => simpa only [exportPath] using ih

/-- The text depends on the paths of the containers only. -/
theorem exportPath_of_shape {T : Symbols} (same : T.shape = S.shape) (exported : Option ContainerId)
    (path : TypedExpr) : exportPath T exported path = exportPath S exported path := by
  have qualified (id : ContainerId) : (T.get id).qualified = (S.get id).qualified :=
    ContainerSymbol.qualified_eq_of_shape (Symbols.get_eq_of_shape same id)
  fun_induction exportPath S exported path with simp_all [exportPath]

end Typing

/-- The imports in sight mention words only. -/
def Scope.Words (scope : Scope) : Prop := ∀ frame ∈ scope, ∀ own ∈ frame.imports, own.decl.Words

theorem Scope.Words.earlier {frame : Frame} {outer : Scope} (words : Scope.Words (frame :: outer))
    {imports : List ScopedImport} (earlier : imports <:+ frame.imports) :
    Scope.Words ({ frame with imports } :: outer) := by
  simp only [Scope.Words, List.forall_mem_cons] at words ⊢
  exact ⟨fun own listed => words.1 own (earlier.subset listed), words.2⟩

/-- The top-level containers in sight are there. -/
def CheckEnv.Inside {σ : Type} (env : CheckEnv σ) (S : Symbols) : Prop :=
  ∀ name id, (env.items.lookup name <|> env.globals.lookup name) = some id → id < S.containers.size

namespace Typing

open Checking

variable {σ : Type} {env : CheckEnv σ} {base bound : Nat} {visit : Visit σ} {s s' : Checking σ} {S : Symbols}

theorem ownMember_spelled (spelled : s.symbols.Spelled) (word : IsWord name.toList)
    (run : ownMember visit innermost callee span name owner s = .ok (some typed) s') :
    s.symbols.Spells typed := by
  simp only [ownMember, Check.bind_ok, Check.symbols_ok] at run
  obtain ⟨_, _, ⟨rfl, rfl⟩, run⟩ := run
  cases sought : (s.symbols.get owner).find? name with
  | none => simp [sought, Check.pure_ok] at run
  | some member =>
    have present : s.symbols.member? ⟨owner, name⟩ = some member := sought
    simp only [sought] at run
    cases inner : member.nested with
    | some nested =>
      simp only [inner, Check.pure_ok, Option.some.injEq] at run
      obtain ⟨rfl, -⟩ := run
      exact .container (spelled.nested present inner)
    | none =>
      simp only [inner, Check.guard_ok, Check.bind_ok, Check.pure_ok, Option.some.injEq] at run
      obtain ⟨-, ⟨type, ref⟩, after, accessed, rfl, -⟩ := run
      simp only [memberAccess, Check.bind_ok, Check.symbols_ok] at accessed
      obtain ⟨_, _, ⟨rfl, rfl⟩, result, after, -, accessed⟩ := accessed
      have inside : owner < s.symbols.containers.size := Symbols.inside_of_member? present
      split at accessed
      · simp only [Check.bind_ok, Check.symbols_ok, Check.guard_ok, Check.pure_ok, Prod.mk.injEq] at accessed
        obtain ⟨_, _, -, -, ⟨-, rfl⟩, -⟩ := accessed
        exact .member inside word
      · simp only [Check.pure_ok, Prod.mk.injEq] at accessed
        obtain ⟨⟨-, rfl⟩, -⟩ := accessed
        exact .member inside word

theorem select_spelled (own : S.Spells object) (word : IsWord name.toList)
    (run : select visit span object name callee s = .ok typed s') : S.Spells typed := by
  unfold select at run
  cases holder : object.type.container? with
  | none => simp [holder, Check.bind_ok, Check.fail_ok] at run
  | some owner =>
    simp only [holder, Check.bind_ok, Check.symbols_ok] at run
    obtain ⟨_, _, ⟨rfl, rfl⟩, run⟩ := run
    cases sought : (s.symbols.get owner).find? name with
    | none => simp [sought, Check.bind_ok, Check.fail_ok] at run
    | some member =>
      simp only [sought] at run
      cases inner : member.nested with
      | some nested =>
        simp only [inner, Check.pure_ok] at run
        obtain ⟨rfl, -⟩ := run
        exact .select own word
      | none =>
        simp only [inner, Check.guard_ok, Check.bind_ok, Check.pure_ok] at run
        obtain ⟨-, _, _, -, rfl, -⟩ := run
        exact .select own word

theorem selectAll_spelled (own : S.Spells object) (words : ∀ name ∈ names, IsWord name.toList)
    (run : selectAll visit span callee object names s = .ok typed s') : S.Spells typed := by
  induction names generalizing s object with
  | nil =>
    simp only [selectAll, Check.pure_ok] at run
    obtain ⟨rfl, -⟩ := run
    exact own
  | cons name rest ih =>
    simp only [selectAll, Check.bind_ok] at run
    obtain ⟨next, after, selected, run⟩ := run
    rw [List.forall_mem_cons] at words
    exact ih (select_spelled own words.1 selected) words.2 run

theorem globalName_spelled (inside : env.Inside S) (word : IsWord name.toList)
    (run : globalName env span name callee s = .ok typed s') : S.Spells typed := by
  unfold globalName at run
  cases listed : (env.items.lookup name <|> env.globals.lookup name) with
  | some id =>
    simp only [listed, Check.pure_ok] at run
    obtain ⟨rfl, -⟩ := run
    exact .container (inside name id listed)
  | none =>
    simp only [listed] at run
    split at run
    · split at run
      · simp only [Check.pure_ok] at run
        obtain ⟨rfl, -⟩ := run
        exact .builtinShow word
      · simp [Check.fail_ok] at run
    · simp [Check.fail_ok] at run

/-- A selector that is found belongs to an import in sight. -/
theorem findSelector_words {imports : List ScopedImport} (words : ∀ own ∈ imports, own.decl.Words)
    {found : Binding} (sought : findSelector name imports = some found) :
    found.decl.Words ∧ IsWord found.source.toList ∧ found.earlier <:+ imports := by
  induction imports with
  | nil => cases sought
  | cons own earlier ih =>
    rw [List.forall_mem_cons] at words
    unfold findSelector at sought
    split at sought
    next selector listed =>
      cases sought
      exact ⟨words.1, (words.1.selectors _ (List.mem_of_find?_eq_some listed)).1, List.suffix_cons _ _⟩
    next =>
      obtain ⟨decl, source, suffix⟩ := ih words.2 sought
      exact ⟨decl, source, suffix.trans (List.suffix_cons _ _)⟩

section Resolve

variable (env : CheckEnv σ) (bound : Nat) (visit : Visit σ) (S : Symbols)

/-- What a name stands for is spelled with words, where the symbols have the shape of `S`. -/
def NameSpelled (span : Span) (name : String) (callee innermost : Bool) (scope : Scope) : Prop :=
  IsWord name.toList → scope.Words → ∀ {s s' : Checking σ} {typed : TypedExpr}, s.Consistent env bound →
    s.symbols.shape = S.shape → resolveName env visit span name callee innermost scope s = .ok typed s' →
    S.Spells typed

def PathSpelled (span : Span) (head : String) (tail : List String) (callee : Bool) (scope : Scope) : Prop :=
  (∀ segment ∈ head :: tail, IsWord segment.toList) → scope.Words →
    ∀ {s s' : Checking σ} {typed : TypedExpr}, s.Consistent env bound → s.symbols.shape = S.shape →
    resolvePath env visit span head tail callee scope s = .ok typed s' → S.Spells typed

def WildcardSpelled (span : Span) (name : String) (callee : Bool) (frame : Frame) (outer : Scope)
    (imports : List ScopedImport) : Prop :=
  IsWord name.toList → Scope.Words ({ frame with imports } :: outer) →
    ∀ {s s' : Checking σ} {typed : TypedExpr}, s.Consistent env bound → s.symbols.shape = S.shape →
    resolveWildcard env visit span name callee frame outer imports s = .ok (some typed) s' → S.Spells typed

end Resolve

/-- The lookups follow the imports of a frame and the frames of a scope, and so does the induction. -/
theorem resolve_spelled (visits : VisitKeeps env base bound visit) (spelled : S.Spelled)
    (inside : env.Inside S) :
    (∀ span name callee innermost scope, NameSpelled env bound visit S span name callee innermost scope) ∧
    (∀ span name callee frame outer imports,
      WildcardSpelled env bound visit S span name callee frame outer imports) ∧
    (∀ span head tail callee scope, PathSpelled env bound visit S span head tail callee scope) ∧
    ∀ (_ : ScopedImport) (_ : Scope), True := by
  refine resolveName.mutual_induct _ _ _ _ ?_ ?_ ?_ ?_ ?_ ?_ ?_ ?_
  · intro span name callee innermost word _ s s' typed _ _ run
    rw [resolveName] at run
    exact globalName_spelled inside word run
  · intro span name callee innermost frame outer found bound word _ s s' typed _ _ run
    rw [resolveName] at run
    simp only [bound, Check.pure_ok] at run
    obtain ⟨rfl, -⟩ := run
    exact .bound word
  · intro span name callee innermost frame outer unbound selected wildcards further word words s s' typed
      ready shape run
    have here := words
    simp only [Scope.Words, List.forall_mem_cons] at here
    rw [resolveName_unbound unbound] at run
    simp only [Check.bind_ok] at run
    obtain ⟨own, after, looked, run⟩ := run
    -- The members of the container come first.
    have first : s.Advances env base bound after ∧ ∀ typed, own = some typed → S.Spells typed := by
      cases holder : frame.container with
      | none =>
        simp only [holder, Check.pure_ok] at looked
        obtain ⟨rfl, rfl⟩ := looked
        exact ⟨.refl ready, by simp⟩
      | some owner =>
        simp only [holder] at looked
        refine ⟨(ownMember_spec visits ready looked).1, ?_⟩
        rintro typed rfl
        exact (ownMember_spelled (spelled.of_shape shape) word looked).of_shape shape.symm
    cases own with
    | some found =>
      simp only [Check.pure_ok] at run
      obtain ⟨rfl, -⟩ := run
      exact first.2 _ rfl
    | none =>
      have step := first.1
      have shaped := step.shape.trans shape
      simp only at run
      cases sought : findSelector name frame.imports with
      | some found =>
        simp only [sought, Check.bind_ok, Check.pure_ok] at run
        obtain ⟨path, last, resolved, rfl, -⟩ := run
        obtain ⟨decl, source, earlier⟩ := findSelector_words here.1 sought
        refine .aliased (selected found sought ?_ (words.earlier earlier) step.consistent shaped resolved)
        exact decl.behind source
      | none =>
        simp only [sought, Check.bind_ok] at run
        obtain ⟨found, last, picked, run⟩ := run
        cases found with
        | some found =>
          simp only [Check.pure_ok] at run
          obtain ⟨rfl, -⟩ := run
          exact wildcards word words step.consistent shaped picked
        | none =>
          have steps := ((resolve_fits visits).2.1 _ _ _ _ _ _ step.consistent picked).1
          refine further word ?_ steps.consistent (steps.shape.trans shaped) run
          simpa only [Scope.Words] using here.2
  · intro span name callee frame outer _ _ s s' typed _ _ run
    rw [resolveWildcard] at run
    simp [Check.pure_ok] at run
  · intro span name callee frame outer own earlier wildcard path member further word words s s' typed ready
      shape run
    have here := words
    simp only [Scope.Words, List.forall_mem_cons] at here
    have others : Scope.Words ({ frame with imports := earlier } :: outer) :=
      words.earlier (List.suffix_cons _ _)
    rw [resolveWildcard] at run
    simp only [wildcard, if_true, Check.bind_ok, Check.symbols_ok] at run
    obtain ⟨target, between, resolved, _, _, ⟨rfl, rfl⟩, run⟩ := run
    have step := (resolve_fits visits).2.2.2 _ _ ready resolved
    split at run
    next =>
      simp only [Check.bind_ok, Check.pure_ok, Option.some.injEq] at run
      obtain ⟨typed, last, picked, rfl, -⟩ := run
      exact .aliased (member (here.1.1.behind word) others step.consistent (step.shape.trans shape) picked)
    next => exact further word others step.consistent (step.shape.trans shape) run
  · intro span name callee frame outer own earlier named further word words s s' typed ready shape run
    rw [resolveWildcard] at run
    simp only [named] at run
    exact further word (words.earlier (List.suffix_cons _ _)) ready shape run
  · intro span head tail callee scope name segments words s s' typed ready shape run
    rw [resolvePath] at run
    simp only [Check.bind_ok] at run
    obtain ⟨first, after, resolved, run⟩ := run
    rw [List.forall_mem_cons] at segments
    exact selectAll_spelled (name segments.1 words ready shape resolved) segments.2 run
  · exact fun _ _ _ => trivial

end Typing

section Places

open Typing

theorem words_importFrame {owner : Option ContainerId} {imports : List Import} {outer : Scope}
    (words : ∀ decl ∈ imports, decl.Words) (further : outer.Words) :
    Scope.Words (importFrame owner imports :: outer) := by
  simp only [Scope.Words, List.forall_mem_cons]
  exact ⟨fun own listed => words _ (mem_scopedImports (List.mem_reverse.mp listed)), further⟩

theorem words_containerFrame (id : ContainerId) {members : List Member} {outer : Scope}
    (words : ∀ member ∈ members, member.Words) (further : outer.Words) :
    Scope.Words (containerFrame id members :: outer) := by
  refine words_importFrame (fun decl listed => ?_) further
  obtain ⟨member, among, own⟩ := List.mem_filterMap.mp listed
  cases member with
  | imports => cases own; simpa only [Member.Words] using words _ among
  | val | func | foreign | container | expr => cases own

mutual

/-- The scopes of a container whose names are words. -/
theorem Container.words_scopes {outer : Scope} (further : outer.Words) (id : ContainerId) :
    ∀ container : Container, container.Words → ∀ entry ∈ container.scopes outer id, entry.2.Words
  | .mk span kind name exported params members, words => by
    have inner : ∀ member ∈ members, member.Words := words.members
    have frame := words_containerFrame id inner further
    rw [Container.scopes, List.forall_mem_cons]
    exact ⟨frame, Member.words_scopesAll frame _ members inner⟩

theorem Member.words_scopesAll {scope : Scope} (further : scope.Words) (next : ContainerId) :
    ∀ members : List Member, (∀ member ∈ members, member.Words) →
      ∀ entry ∈ Member.scopesAll scope next members, entry.2.Words
  | [], _ => by simp [Member.scopesAll]
  | .container decl :: rest, words => by
    rw [List.forall_mem_cons] at words
    have own : decl.Words := by simpa only [Member.Words] using words.1
    rw [Member.scopesAll, List.forall_mem_append]
    exact ⟨Container.words_scopes further next decl own, Member.words_scopesAll further _ rest words.2⟩
  | .imports _ :: rest, words | .val _ :: rest, words | .func _ :: rest, words
  | .foreign _ :: rest, words | .expr _ _ :: rest, words => by
    simp only [Member.scopesAll]
    exact Member.words_scopesAll further next rest (List.forall_mem_cons.mp words).2

end

theorem importAt?_words {scope place : Scope} {index : Nat} {own : ScopedImport} (words : scope.Words)
    (found : importAt? scope index = some (own, place)) : own.decl.Words ∧ place.Words := by
  unfold importAt? at found
  split at found
  · cases found
  next frame outer =>
    split at found
    next mine earlier dropped =>
      simp only [Option.some.injEq, Prod.mk.injEq] at found
      obtain ⟨rfl, rfl⟩ := found
      have suffix : mine :: earlier <:+ frame.imports := dropped ▸ List.drop_suffix _ _
      refine ⟨?_, words.earlier ((List.suffix_cons _ _).trans suffix)⟩
      exact words frame List.mem_cons_self mine (suffix.subset List.mem_cons_self)
    next => cases found

/-- The imports of a unit whose names are words mention words, and so do those in front of them. -/
theorem unitHome_words {program : Program} (words : program.Words) {base : Nat} {key : ImportKey}
    {own : ScopedImport} {place : Scope}
    (found : unitHome base program.imports program.items key = some (own, place)) :
    own.decl.Words ∧ place.Words := by
  have unit : Scope.Words [importFrame none program.imports] := words_importFrame words.imports (by simp [Scope.Words])
  unfold unitHome at found
  split at found
  · exact importAt?_words unit found
  · obtain ⟨scope, listed, found⟩ := Option.bind_eq_some_iff.mp found
    refine importAt?_words ?_ found
    have items : ∀ member ∈ program.items.map Member.container, member.Words := by
      simpa [Member.Words] using words.items
    exact Member.words_scopesAll unit _ _ items _ (mem_of_lookup listed)

end Places

section Tables

theorem dotted_pathIn {outer : Option String} (front : ∀ path ∈ outer, Dotted path) {name : String}
    (word : IsWord name.toList) : Dotted (Container.pathIn outer name) := by
  cases outer with
  | none => exact .word word
  | some path => exact (front path rfl).append (.word word)

theorem nested_params {qualified : String} {slot : Nat} {params : List ParamDecl} :
    ∀ member ∈ ParamDecl.symbols qualified slot params, member.nested = none := by
  induction params generalizing slot with
  | nil => simp [ParamDecl.symbols]
  | cons param rest ih => simpa [ParamDecl.symbols] using ih

theorem Container.count_pos (decl : Container) : 0 < decl.count := by
  cases decl with
  | mk =>
    rw [Container.count]
    omega

/-- The containers nested among members have numbers from `next` on. -/
theorem nested_symbols {isClass : Bool} {qualified : String} {slot next : Nat} {members : List Member} :
    ∀ member ∈ Member.symbols isClass qualified slot next members, ∀ n ∈ member.nested,
      n < next + Member.countAll members := by
  induction members generalizing slot next with
  | nil => simp [Member.symbols]
  | cons head rest ih =>
    rw [Member.symbols, List.forall_mem_append, Member.countAll_cons]
    refine ⟨fun member own n inner => ?_, fun member listed n inner => ?_⟩
    · cases head with
      | container decl =>
        obtain rfl : decl.symbol next = member := by simpa [Member.symbol?, eq_comm] using own
        obtain rfl : next = n := by simpa [Container.symbol] using inner
        exact Nat.lt_add_of_pos_right (Nat.add_pos_left decl.count_pos _)
      | val decl | func decl | foreign decl =>
        simp only [Member.symbol?, Option.toList_some, List.mem_singleton] at own
        rw [own] at inner
        cases inner
      | imports | expr => simp [Member.symbol?] at own
    · exact Nat.lt_of_lt_of_eq (ih member listed n inner) (Nat.add_assoc _ _ _)

mutual

/-- A container whose names are words is declared with paths made of words. -/
theorem Container.spelled_table {artifact : String} {outer : Option String}
    (front : ∀ path ∈ outer, Dotted path) (next : ContainerId) : ∀ container : Container, container.Words →
      ∀ symbol ∈ container.table artifact outer next, Dotted symbol.qualified ∧
        ∀ member ∈ symbol.members, ∀ n ∈ member.nested, n < next + container.count
  | .mk span kind name exported params members, words => by
    have own : Dotted (Container.pathIn outer name) := dotted_pathIn front words.name
    rw [Container.table, List.forall_mem_cons, Container.count, ← Nat.add_assoc]
    refine ⟨⟨own, ?_⟩, Member.spelled_tableAll own (next + 1) members words.members⟩
    rw [List.forall_mem_append]
    refine ⟨fun member listed n inner => ?_, nested_symbols⟩
    rw [nested_params member listed] at inner
    cases inner

theorem Member.spelled_tableAll {artifact outer : String} (front : Dotted outer) (next : ContainerId) :
    ∀ members : List Member, (∀ member ∈ members, member.Words) →
      ∀ symbol ∈ Member.tableAll artifact outer next members, Dotted symbol.qualified ∧
        ∀ member ∈ symbol.members, ∀ n ∈ member.nested, n < next + Member.countAll members
  | [], _ => by simp [Member.tableAll]
  | .container decl :: rest, words => by
    rw [List.forall_mem_cons] at words
    have own : decl.Words := by simpa only [Member.Words] using words.1
    rw [Member.tableAll, List.forall_mem_append, Member.countAll, ← Nat.add_assoc]
    refine ⟨fun symbol listed => ?_, Member.spelled_tableAll front _ rest words.2⟩
    obtain ⟨path, nested⟩ := Container.spelled_table (by simpa using front) next decl own symbol listed
    exact ⟨path, fun member there n inner =>
      Nat.lt_of_lt_of_le (nested member there n inner) (Nat.le_add_right _ _)⟩
  | .imports _ :: rest, words | .val _ :: rest, words | .func _ :: rest, words
  | .foreign _ :: rest, words | .expr _ _ :: rest, words => by
    simp only [Member.tableAll, Member.countAll]
    exact Member.spelled_tableAll front next rest (List.forall_mem_cons.mp words).2

end

theorem Container.spelled_tables {next : ContainerId} {items : List Container}
    (words : ∀ item ∈ items, item.Words) : ∀ symbol ∈ Container.tables next items,
      Dotted symbol.qualified ∧ ∀ member ∈ symbol.members, ∀ n ∈ member.nested,
        n < next + (Container.tables next items).length := by
  induction items generalizing next with
  | nil => simp [Container.tables]
  | cons item rest ih =>
    rw [List.forall_mem_cons] at words
    rw [Container.tables, List.forall_mem_append, List.length_append, item.length_table, ← Nat.add_assoc]
    refine ⟨fun symbol listed => ?_, ih words.2⟩
    obtain ⟨path, nested⟩ := Container.spelled_table (by simp) next item words.1 symbol listed
    exact ⟨path, fun member there n inner =>
      Nat.lt_of_lt_of_le (nested member there n inner) (Nat.le_add_right _ _)⟩

/-- The declarations of a unit whose names are words leave paths made of words. -/
theorem Symbols.Spelled.declared {S : Symbols} (spelled : S.Spelled) {items : List Container}
    (words : ∀ item ∈ items, item.Words) :
    (S.extend (Container.tables S.containers.size items)).Spelled := by
  intro id small
  rw [size_extend] at small ⊢
  by_cases old : id < S.containers.size
  · rw [get_extend_old old]
    obtain ⟨path, nested⟩ := spelled id old
    exact ⟨path, fun member listed n inner =>
      Nat.lt_of_lt_of_le (nested member listed n inner) (Nat.le_add_right _ _)⟩
  · obtain ⟨i, rfl⟩ := Nat.exists_eq_add_of_le (Nat.le_of_not_lt old)
    have inside := Nat.lt_of_add_lt_add_left small
    rw [get_extend_new, List.getElem?_eq_getElem inside, Option.getD_some]
    exact Container.spelled_tables words _ (List.getElem_mem inside)

theorem Container.lt_of_mem_numbers {next id : ContainerId} {items : List Container}
    (listed : id ∈ Container.numbers next items) : id < next + (Container.tables next items).length := by
  induction items generalizing next with
  | nil => cases listed
  | cons item rest ih =>
    rw [Container.tables, List.length_append, item.length_table, ← Nat.add_assoc]
    rcases List.mem_cons.mp listed with rfl | listed
    · exact Nat.lt_of_lt_of_le (Nat.lt_add_of_pos_right item.count_pos) (Nat.le_add_right _ _)
    · exact ih listed

end Tables

/-- The symbols of finished units: paths made of words, and top-level containers that are there. -/
structure SymbolTable.Spelled (table : SymbolTable) : Prop where
  symbols : table.symbols.Spelled
  globals : ∀ entry ∈ table.globals, entry.2 < table.symbols.containers.size

end ScriptShell
