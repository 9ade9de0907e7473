import ScriptShell.Proofs.Typing.Growth

/-! Names and paths stand for what the judgement says. The lookup of a name goes outwards through the
frames of a scope; what carries the proof is that the frames passed so far hold no container as
long as the lookup may still find a member of the object at hand. -/
namespace ScriptShell.Typing

open Checking

variable {σ : Type} {env : CheckEnv σ} {base bound : Nat} {visit : Visit σ} {s s' : Checking σ}

/-- What the check of a member that is asked for must do. -/
structure VisitKeeps (env : CheckEnv σ) (base bound : Nat) (visit : Visit σ) : Prop where
  advances : ∀ key s s', s.Consistent env bound → visit key s = .ok () s' →
    s.Advances env base bound s'
  typed : ∀ key s s', s.Consistent env bound → visit key s = .ok () s' →
    s.progress.lookup key = some ⟨.pending, false⟩ → s'.Typed key

theorem memberType_spec (visits : VisitKeeps env base bound visit) (ready : s.Consistent env bound)
    (found : s.symbols.member? key = some member)
    (run : memberType visit key member use s = .ok type s') :
    s.Advances env base bound s' ∧ s'.Typed key ∧
      ∃ now, s'.symbols.member? key = some now ∧ now.shape = member.shape ∧ now.type = type := by
  simp only [memberType, Check.bind_ok, Check.progress?_ok] at run
  obtain ⟨progress, _, ⟨listed, rfl⟩, run⟩ := run
  cases progress with
  | none =>
    simp only [Check.pure_ok] at run
    obtain ⟨rfl, rfl⟩ := run
    exact ⟨.refl ready, fun own present => by simp [listed] at present, member, found, rfl, rfl⟩
  | some own =>
    obtain ⟨state, typed⟩ := own
    have flags := ready.flags _ (mem_of_lookup listed)
    simp only [Check.guard_ok] at run
    obtain ⟨idle, run⟩ := run
    cases typed with
    | true =>
      simp only [Bool.not_true, Bool.false_eq_true, if_false, Check.bind_ok, Check.symbols_ok,
        Check.pure_ok] at run
      obtain ⟨_, _, ⟨rfl, rfl⟩, rfl, rfl⟩ := run
      refine ⟨.refl ready, ?_, member, found, rfl, by simp [found]⟩
      intro own present
      rw [listed] at present
      cases present
      exact ⟨rfl, flags.2 rfl⟩
    | false =>
      have waiting : state = .pending := by
        cases state with
        | pending => rfl
        | checking => simp at idle
        | done => simpa using flags.1 rfl
      subst waiting
      simp only [Bool.not_false, if_true, Check.bind_ok, Check.symbols_ok, Check.pure_ok] at run
      obtain ⟨_, after, visited, _, _, ⟨rfl, rfl⟩, rfl, rfl⟩ := run
      have steps := visits.advances key s after ready visited
      obtain ⟨now, present, same⟩ := Symbols.member?_of_shape steps.shape found
      exact ⟨steps, visits.typed key s after ready visited listed, now, present, same,
        by simp [present]⟩

/-- A member that was accessed is read as the judgement says, and its type is known. -/
theorem memberAccess_spec (visits : VisitKeeps env base bound visit)
    (ready : s.Consistent env bound) (found : s.symbols.member? key = some member)
    (run : memberAccess visit key member onThis callee span s = .ok (type, ref) s') :
    s.Advances env base bound s' ∧ s'.Typed key ∧ ∀ S, s'.Below S →
      ∃ later auto, S.member? key = some later ∧ later.shape = member.shape ∧
        later.Access callee type auto ∧ ref = .member key (S.get key.owner).isClass onThis auto := by
  simp only [memberAccess, Check.bind_ok, Check.symbols_ok] at run
  obtain ⟨_, _, ⟨rfl, rfl⟩, result, after, typed, run⟩ := run
  obtain ⟨steps, known, now, present, same, rfl⟩ := memberType_spec visits ready found typed
  have later : ∀ S, after.Below S → ∃ later, S.member? key = some later ∧
      later.shape = member.shape ∧ (S.get key.owner).isClass = (s.symbols.get key.owner).isClass ∧
      (later.isParam = false → later.type = now.type ∧ later.params = now.params) := by
    intro S below
    obtain ⟨later, listed, shaped⟩ := Symbols.member?_of_shape below.shape present
    refine ⟨later, listed, shaped.trans same,
      Symbols.isClass_of_shape (below.shape.trans steps.shape) key.owner, ?_⟩
    intro stored
    refine below.types key ⟨known, ?_⟩ now later present listed
    intro member' present'
    rw [present] at present'
    cases present'
    rw [← MemberSymbol.isParam_eq_of_shape shaped]
    exact stored
  split at run
  next bare =>
    simp only [Check.bind_ok, Check.symbols_ok, Check.guard_ok, Check.pure_ok, Prod.mk.injEq] at run
    obtain ⟨_, _, ⟨rfl, rfl⟩, empty, ⟨rfl, rfl⟩, rfl⟩ := run
    refine ⟨steps, known, ?_⟩
    intro S below
    obtain ⟨later, listed, shaped, isClass, types⟩ := later S below
    have bare : member.kind.isCallable = true ∧ callee = false := by simpa using bare
    refine ⟨later, true, listed, shaped, ⟨fun stored => (types stored).1, ?_, ?_⟩, by rw [isClass]⟩
    · simp [MemberSymbol.kind_eq_of_shape shaped, bare]
    · intro stored _ _
      have none : now.params = [] := by simpa [present] using empty
      rw [(types stored).2, none]
  next bare =>
    simp only [Check.pure_ok, Prod.mk.injEq] at run
    obtain ⟨⟨rfl, rfl⟩, rfl⟩ := run
    refine ⟨steps, known, ?_⟩
    intro S below
    obtain ⟨later, listed, shaped, isClass, types⟩ := later S below
    refine ⟨later, false, listed, shaped, ⟨fun stored => (types stored).1, ?_, ?_⟩, by rw [isClass]⟩
    · simpa [MemberSymbol.kind_eq_of_shape shaped] using bare
    · intro _ callable applied
      simp [← MemberSymbol.kind_eq_of_shape shaped, callable, applied] at bare

/-- The member of a container that a bare name finds. Only the innermost container may be a class
whose stored members are found. -/
theorem ownMember_spec (visits : VisitKeeps env base bound visit) (ready : s.Consistent env bound)
    (run : ownMember visit innermost callee span name owner s = .ok found s') :
    s.Advances env base bound s' ∧ ∀ typed, found = some typed →
      s'.Knows typed ∧ ∀ S, s'.Below S → ∀ scope : Scope,
        (innermost = true → (S.get owner).isClass = true → scope.innermostClass? S = some owner) →
        WellTyped S callee scope typed := by
  simp only [ownMember, Check.bind_ok, Check.symbols_ok] at run
  obtain ⟨_, _, ⟨rfl, rfl⟩, run⟩ := run
  cases sought : (s.symbols.get owner).find? name with
  | none =>
    simp only [sought, Check.pure_ok] at run
    obtain ⟨rfl, rfl⟩ := run
    exact ⟨.refl ready, fun typed impossible => by simp at impossible⟩
  | some member =>
    simp only [sought] at run
    cases inner : member.nested with
    | some nested =>
      simp only [inner, Check.pure_ok] at run
      obtain ⟨rfl, rfl⟩ := run
      refine ⟨.refl ready, ?_⟩
      rintro typed ⟨⟩
      exact ⟨fun key impossible => by simp [TypedExpr.calleeMember?] at impossible,
        fun S _ scope _ => .container⟩
    | none =>
      simp only [inner, Check.guard_ok, Check.bind_ok, Check.pure_ok] at run
      obtain ⟨reached, ⟨type, ref⟩, after, accessed, rfl, rfl⟩ := run
      have present : s.symbols.member? ⟨owner, name⟩ = some member := sought
      obtain ⟨steps, known, later⟩ := memberAccess_spec visits ready present accessed
      refine ⟨steps, ?_⟩
      rintro typed ⟨⟩
      constructor
      · intro key named
        obtain ⟨_, _, _, _, _, rfl⟩ := later _ (.refl _)
        cases named
        exact known
      · intro S below scope receiver
        obtain ⟨member', auto, listed, shaped, access, rfl⟩ := later S below
        have isClass := Symbols.isClass_of_shape (below.shape.trans steps.shape) owner
        rw [← isClass]
        refine .member listed ((MemberSymbol.nested_eq_of_shape shaped).trans inner) ?_ access
        intro cls
        apply receiver _ cls
        simpa [isClass ▸ cls] using reached

theorem select_spec (visits : VisitKeeps env base bound visit) (ready : s.Consistent env bound)
    (run : select visit span object name callee s = .ok typed s') :
    s.Advances env base bound s' ∧ s'.Knows typed ∧ ∀ S, s'.Below S → ∀ scope,
      WellTyped S false scope object → WellTyped S callee scope typed := by
  unfold select at run
  cases holder : object.type.container? with
  | none => simp [holder, Check.bind_ok, Check.fail_ok] at run
  | some owner =>
    simp only [holder, Check.bind_ok, Check.symbols_ok] at run
    obtain ⟨_, _, ⟨rfl, rfl⟩, run⟩ := run
    cases sought : (s.symbols.get owner).find? name with
    | none => simp [sought, Check.bind_ok, Check.fail_ok] at run
    | some member =>
      simp only [sought] at run
      cases inner : member.nested with
      | some nested =>
        simp only [inner, Check.pure_ok] at run
        obtain ⟨rfl, rfl⟩ := run
        exact ⟨.refl ready, fun key impossible => by simp [TypedExpr.calleeMember?] at impossible,
          fun S _ scope typed => .nested typed⟩
      | none =>
        simp only [inner, Check.guard_ok, Check.bind_ok, Check.pure_ok] at run
        obtain ⟨_, ⟨type, ref⟩, after, accessed, rfl, rfl⟩ := run
        have present : s.symbols.member? ⟨owner, name⟩ = some member := sought
        obtain ⟨steps, known, later⟩ := memberAccess_spec visits ready present accessed
        refine ⟨steps, ?_, ?_⟩
        · intro key named
          obtain ⟨_, _, _, _, _, rfl⟩ := later _ (.refl _)
          cases named
          exact known
        · intro S below scope typed
          obtain ⟨member', auto, listed, shaped, access, rfl⟩ := later S below
          exact .select typed holder listed ((MemberSymbol.nested_eq_of_shape shaped).trans inner)
            access

theorem selectAll_spec (visits : VisitKeeps env base bound visit) (ready : s.Consistent env bound)
    (known : s.Knows object) (run : selectAll visit span callee object names s = .ok typed s') :
    s.Advances env base bound s' ∧ s'.Knows typed ∧ ∀ S, s'.Below S → ∀ scope,
      WellTyped S (callee && names.isEmpty) scope object → WellTyped S callee scope typed := by
  induction names generalizing s object with
  | nil =>
    simp only [selectAll, Check.pure_ok] at run
    obtain ⟨rfl, rfl⟩ := run
    exact ⟨.refl ready, known, fun S _ scope typed => by simpa using typed⟩
  | cons name rest ih =>
    simp only [selectAll, Check.bind_ok] at run
    obtain ⟨next, after, selected, run⟩ := run
    obtain ⟨first, knownNext, wellNext⟩ := select_spec visits ready selected
    obtain ⟨second, knownLast, wellLast⟩ := ih first.consistent knownNext run
    refine ⟨first.trans second, knownLast, ?_⟩
    intro S below scope typed
    exact wellLast S below scope (wellNext S (second.below below) scope (by simpa using typed))

theorem globalName_spec (ready : s.Consistent env bound)
    (run : globalName env span name callee s = .ok typed s') :
    s.Advances env base bound s' ∧ s'.Knows typed ∧ ∀ S scope, WellTyped S callee scope typed := by
  unfold globalName at run
  cases listed : (env.items.lookup name <|> env.globals.lookup name) with
  | some owner =>
    simp only [listed, Check.pure_ok] at run
    obtain ⟨rfl, rfl⟩ := run
    exact ⟨.refl ready, fun key impossible => by simp [TypedExpr.calleeMember?] at impossible,
      fun S scope => .container⟩
  | none =>
    simp only [listed] at run
    split at run
    · split at run
      next applied =>
        simp only [Check.pure_ok] at run
        obtain ⟨rfl, rfl⟩ := run
        refine ⟨.refl ready, fun key impossible => by simp [TypedExpr.calleeMember?] at impossible,
          fun S scope => ?_⟩
        rw [applied]
        exact .builtinShow
      next => simp [Check.fail_ok] at run
    · simp [Check.fail_ok] at run

/-- A lookup that has come as far as `scope` gives what fits the whole scope it began in. As long as
no container was passed, both have the same innermost class. -/
def NameFits (env : CheckEnv σ) (base bound : Nat) (visit : Visit σ) (span : Span) (name : String)
    (callee innermost : Bool) (scope : Scope) : Prop :=
  ∀ {s s' : Checking σ} {typed : TypedExpr}, s.Consistent env bound →
    resolveName env visit span name callee innermost scope s = .ok typed s' →
    s.Advances env base bound s' ∧ s'.Knows typed ∧ ∀ S, s'.Below S → ∀ whole : Scope, scope <:+ whole →
      (innermost = true → whole.innermostClass? S = scope.innermostClass? S) →
      WellTyped S callee whole typed

def PathFits (env : CheckEnv σ) (base bound : Nat) (visit : Visit σ) (span : Span) (head : String)
    (tail : List String) (callee : Bool) (scope : Scope) : Prop :=
  ∀ {s s' : Checking σ} {typed : TypedExpr}, s.Consistent env bound →
    resolvePath env visit span head tail callee scope s = .ok typed s' →
    s.Advances env base bound s' ∧ s'.Knows typed ∧ ∀ S, s'.Below S → WellTyped S callee scope typed

def WildcardFits (env : CheckEnv σ) (base bound : Nat) (visit : Visit σ) (span : Span)
    (name : String) (callee : Bool) (frame : Frame) (outer : Scope) (imports : List ScopedImport) :
    Prop :=
  ∀ {s s' : Checking σ} {found : Option TypedExpr}, s.Consistent env bound →
    resolveWildcard env visit span name callee frame outer imports s = .ok found s' →
    s.Advances env base bound s' ∧ ∀ typed, found = some typed → s'.Knows typed ∧
      ∀ S, s'.Below S → ∀ whole, frame :: outer <:+ whole → WellTyped S callee whole typed

def ImportAdvances (env : CheckEnv σ) (base bound : Nat) (visit : Visit σ) (own : ScopedImport)
    (scope : Scope) : Prop :=
  ∀ {s s' : Checking σ} {path : TypedExpr}, s.Consistent env bound →
    importPath env visit own scope s = .ok path s' → s.Advances env base bound s'

theorem knows_aliased (known : s.Knows path) : s.Knows (.aliased span type name path) :=
  fun key named => known key (by simpa only [TypedExpr.calleeMember?] using named)

/-- The lookup in a frame that has no local of the name. -/
theorem resolveName_unbound (unbound : frame.locals.lookup name = none) :
    resolveName env visit span name callee innermost (frame :: outer) = (do
      let own ← (match frame.container with
        | some id => ownMember visit innermost callee span name id
        | none => return none)
      match own with
      | some found => return found
      | none =>
        match findSelector name frame.imports with
        | some found => do
          let path ← resolvePath env visit span found.decl.head
            (found.decl.tail ++ [found.source]) callee
            ({ frame with imports := found.earlier } :: outer)
          return .aliased span path.type name path
        | none => do
          match ← resolveWildcard env visit span name callee frame outer frame.imports with
          | some found => return found
          | none =>
            resolveName env visit span name callee (innermost && frame.container.isNone) outer) := by
  rw [resolveName]
  simp only [unbound]
  congr 1
  funext own
  cases own with
  | some found => rfl
  | none =>
    cases findSelector name frame.imports <;> rfl

/-- The members of the container of a frame, looked up by a bare name. -/
theorem frameMember_fits {frame : Frame} (outer : Scope) (visits : VisitKeeps env base bound visit)
    (ready : s.Consistent env bound)
    (run : (match frame.container with
      | some id => ownMember visit innermost callee span name id
      | none => return none) s = .ok own s') :
    s.Advances env base bound s' ∧ ∀ typed, own = some typed → s'.Knows typed ∧
      ∀ S, s'.Below S → ∀ whole : Scope, frame :: outer <:+ whole →
        (innermost = true → whole.innermostClass? S = Scope.innermostClass? S (frame :: outer)) →
        WellTyped S callee whole typed := by
  cases holder : frame.container with
  | none =>
    simp only [holder, Check.pure_ok] at run
    obtain ⟨rfl, rfl⟩ := run
    exact ⟨.refl ready, fun typed impossible => by simp at impossible⟩
  | some owner =>
    simp only [holder] at run
    obtain ⟨steps, found⟩ := ownMember_spec visits ready run
    refine ⟨steps, fun typed same => ⟨(found typed same).1, ?_⟩⟩
    intro S below whole inside receiver
    apply (found typed same).2 S below whole
    intro reached isClass
    rw [receiver reached]
    simp [Scope.innermostClass?, holder, isClass]

/-- A frame without a local of the name: its members come first, then its selectors, then its wildcards, and
then the scope around it. -/
theorem NameFits.unbound {frame : Frame} {outer : Scope} (visits : VisitKeeps env base bound visit)
    (unbound : frame.locals.lookup name = none)
    (selected : ∀ found, findSelector name frame.imports = some found →
      PathFits env base bound visit span found.decl.head (found.decl.tail ++ [found.source]) callee
        ({ frame with imports := found.earlier } :: outer))
    (wildcards : WildcardFits env base bound visit span name callee frame outer frame.imports)
    (further : NameFits env base bound visit span name callee (innermost && frame.container.isNone) outer) :
    NameFits env base bound visit span name callee innermost (frame :: outer) := by
  intro s s' typed ready run
  rw [resolveName_unbound unbound] at run
  simp only [Check.bind_ok] at run
  obtain ⟨own, after, looked, run⟩ := run
  obtain ⟨step, owned⟩ := frameMember_fits outer visits ready looked
  cases own with
  | some found =>
    simp only [Check.pure_ok] at run
    obtain ⟨rfl, rfl⟩ := run
    exact ⟨step, (owned _ rfl).1, (owned _ rfl).2⟩
  | none =>
    simp only at run
    cases sought : findSelector name frame.imports with
    | some found =>
      simp only [sought, Check.bind_ok, Check.pure_ok] at run
      obtain ⟨path, last, resolved, rfl, rfl⟩ := run
      obtain ⟨steps, known, well⟩ := selected found sought step.consistent resolved
      refine ⟨step.trans steps, knows_aliased known, ?_⟩
      intro S below whole inside _
      exact .aliased inside (well S below)
    | none =>
      simp only [sought, Check.bind_ok] at run
      obtain ⟨found, last, picked, run⟩ := run
      obtain ⟨steps, well⟩ := wildcards step.consistent picked
      cases found with
      | some found =>
        simp only [Check.pure_ok] at run
        obtain ⟨rfl, rfl⟩ := run
        exact ⟨step.trans steps, (well _ rfl).1,
          fun S below whole inside _ => (well _ rfl).2 S below whole inside⟩
      | none =>
        obtain ⟨rest, known, well⟩ := further steps.consistent run
        refine ⟨(step.trans steps).trans rest, known, ?_⟩
        intro S below whole inside receiver
        apply well S below whole ((List.suffix_cons frame outer).trans inside)
        intro reached
        simp only [Bool.and_eq_true, Option.isNone_iff_eq_none] at reached
        rw [receiver reached.1]
        simp [Scope.innermostClass?, reached.2]

theorem resolve_fits (visits : VisitKeeps env base bound visit) :
    (∀ span name callee innermost scope,
      NameFits env base bound visit span name callee innermost scope) ∧
    (∀ span name callee frame outer imports,
      WildcardFits env base bound visit span name callee frame outer imports) ∧
    (∀ span head tail callee scope, PathFits env base bound visit span head tail callee scope) ∧
    ∀ own scope, ImportAdvances env base bound visit own scope := by
  refine resolveName.mutual_induct _ _ _ _ ?_ ?_ ?_ ?_ ?_ ?_ ?_ ?_
  · intro span name callee innermost s s' typed ready run
    rw [resolveName] at run
    obtain ⟨steps, known, well⟩ := globalName_spec ready run
    exact ⟨steps, known, fun S _ whole _ _ => well S whole⟩
  · intro span name callee innermost frame outer found bound s s' typed ready run
    rw [resolveName] at run
    simp only [bound, Check.pure_ok] at run
    obtain ⟨rfl, rfl⟩ := run
    refine ⟨.refl ready, fun key impossible => by simp [TypedExpr.calleeMember?] at impossible, ?_⟩
    intro S _ whole inside _
    exact .bound (inside.subset List.mem_cons_self) bound
  · intro span name callee innermost frame outer unbound selected wildcards further
    exact NameFits.unbound visits unbound selected wildcards further
  · intro span name callee frame outer s s' found ready run
    rw [resolveWildcard] at run
    simp only [Check.pure_ok] at run
    obtain ⟨rfl, rfl⟩ := run
    exact ⟨.refl ready, fun typed impossible => by simp at impossible⟩
  · intro span name callee frame outer own earlier wildcard path member further s s' found ready run
    rw [resolveWildcard] at run
    simp only [wildcard, if_true, Check.bind_ok, Check.symbols_ok] at run
    obtain ⟨target, between, resolved, _, _, ⟨rfl, rfl⟩, run⟩ := run
    have first := path ready resolved
    split at run
    next =>
      simp only [Check.bind_ok, Check.pure_ok] at run
      obtain ⟨typed, last, picked, rfl, rfl⟩ := run
      obtain ⟨steps, known, well⟩ := member first.consistent picked
      refine ⟨first.trans steps, ?_⟩
      rintro typed ⟨⟩
      exact ⟨knows_aliased known, fun S below whole inside => .aliased inside (well S below)⟩
    next =>
      obtain ⟨steps, well⟩ := further first.consistent run
      exact ⟨first.trans steps, well⟩
  · intro span name callee frame outer own earlier named further s s' found ready run
    rw [resolveWildcard] at run
    simp only [named] at run
    exact further ready run
  · intro span head tail callee scope name s s' typed ready run
    rw [resolvePath] at run
    simp only [Check.bind_ok] at run
    obtain ⟨first, after, resolved, run⟩ := run
    obtain ⟨steps, known, well⟩ := name ready resolved
    obtain ⟨rest, knownLast, wellLast⟩ := selectAll_spec visits steps.consistent known run
    refine ⟨steps.trans rest, knownLast, ?_⟩
    intro S below
    exact wellLast S below scope
      (well S (rest.below below) scope (List.suffix_refl scope) (fun _ => rfl))
  · intro own scope path s s' typed ready run
    rw [importPath] at run
    simp only [Check.bind_ok, Check.get_ok] at run
    obtain ⟨_, _, ⟨rfl, rfl⟩, run⟩ := run
    cases cached : s.paths.lookup own.key with
    | some known =>
      simp only [cached, Check.pure_ok] at run
      obtain ⟨rfl, rfl⟩ := run
      exact .refl ready
    | none =>
      simp only [cached, Check.bind_ok, Check.guard_ok, Check.modify_ok, Check.pure_ok] at run
      obtain ⟨found, after, resolved, _, _, _, rfl, rfl, rfl⟩ := run
      have steps := (path ready resolved).1
      exact steps.trans (.of_fields steps.consistent rfl rfl rfl (Nat.le_refl _))

theorem resolveName_spec (visits : VisitKeeps env base bound visit) (ready : s.Consistent env bound)
    (run : resolveName env visit span name callee true scope s = .ok typed s') :
    s.Advances env base bound s' ∧ s'.Knows typed ∧
      ∀ S, s'.Below S → WellTyped S callee scope typed := by
  obtain ⟨steps, known, well⟩ := (resolve_fits visits).1 span name callee true scope ready run
  exact ⟨steps, known, fun S below => well S below scope (List.suffix_refl scope) (fun _ => rfl)⟩

theorem importPath_spec (visits : VisitKeeps env base bound visit) (ready : s.Consistent env bound)
    (run : importPath env visit own scope s = .ok path s') : s.Advances env base bound s' :=
  (resolve_fits visits).2.2.2 own scope ready run

/-- A type written as the path of a class. -/
theorem classType_spec (visits : VisitKeeps env base bound visit) (ready : s.Consistent env bound)
    (run : (do
      let path ← resolvePath env visit span head tail false scope
      match path.type with
      | .space id =>
        if ((← Check.symbols).get id).isClass then return Ty.object id else Check.fail span cause
      | _ => Check.fail span cause) s = .ok type s') :
    s.Advances env base bound s' ∧
      ∃ cls, type = .object cls ∧ ∀ S, s'.Below S → (S.get cls).isClass = true := by
  simp only [Check.bind_ok] at run
  obtain ⟨path, after, resolved, run⟩ := run
  have steps := ((resolve_fits visits).2.2.1 _ _ _ _ _ ready resolved).1
  cases space : path.type with
  | space cls =>
    simp only [space, Check.bind_ok, Check.symbols_ok] at run
    obtain ⟨_, _, ⟨rfl, rfl⟩, run⟩ := run
    split at run
    next isClass =>
      simp only [Check.pure_ok] at run
      obtain ⟨rfl, rfl⟩ := run
      refine ⟨steps, cls, rfl, ?_⟩
      intro S below
      rw [Symbols.isClass_of_shape below.shape]
      exact isClass
    next => simp [Check.fail_ok] at run
  | error | int | str | unit | object => simp [space, Check.fail_ok] at run

/-- A written type is one of the built-in ones, or stands for the objects of a class. -/
theorem resolveType_spec (visits : VisitKeeps env base bound visit) (ready : s.Consistent env bound)
    (run : resolveType env visit scope ref s = .ok type s') :
    s.Advances env base bound s' ∧ (type = .int ∨ type = .str ∨ type = .unit ∨
      ∃ cls, type = .object cls ∧ ∀ S, s'.Below S → (S.get cls).isClass = true) := by
  have builtin : ∀ t : Ty, resolveType env visit scope ref = pure t →
      s.Advances env base bound s' ∧ type = t := by
    intro t same
    rw [same] at run
    obtain ⟨rfl, rfl⟩ := Check.pure_ok.mp run
    exact ⟨.refl ready, rfl⟩
  have step : resolveType env visit scope ref = resolveType env visit scope ref := rfl
  conv at step => rhs; unfold resolveType
  split at step
  · exact ⟨(builtin _ step).1, .inl (builtin _ step).2⟩
  · exact ⟨(builtin _ step).1, .inr (.inl (builtin _ step).2)⟩
  · exact ⟨(builtin _ step).1, .inr (.inr (.inl (builtin _ step).2))⟩
  · rw [step] at run
    exact (Check.fail_ok.mp run).elim
  · rw [step] at run
    obtain ⟨steps, cls⟩ := classType_spec visits ready run
    exact ⟨steps, .inr (.inr (.inr cls))⟩

/-- A written type is that of a member. -/
theorem resolveType_ofMember (visits : VisitKeeps env base bound visit) (ready : s.Consistent env bound)
    (run : resolveType env visit scope ref s = .ok type s') : type.OfMember := by
  obtain ⟨-, rfl | rfl | rfl | ⟨cls, rfl, -⟩⟩ := resolveType_spec visits ready run
  all_goals exact Ty.ofMember_of_isValue rfl

end ScriptShell.Typing
