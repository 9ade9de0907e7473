import ScriptShell.Proofs.Typing.Members

/-! Checks that agree. `Stable` lists all that a check does to its state once the containers of a unit are
declared. What each of these steps keeps is kept by the whole check, and two checks whose visits agree
wherever it holds are the same there: visits may differ in states that a check does not get to. -/
namespace ScriptShell

variable {σ α β : Type} {P : Checking σ → Prop}

/-- A state invariant that every single step of a check keeps, where `ours` tells which containers are those of
the unit. -/
structure Services.Stable (services : Services σ) (ours : ContainerId → Prop) (P : Checking σ → Prop) : Prop where
  /-- The symbols of the unit are filled in. -/
  symbols : ∀ {s S}, P s → S.shape = s.symbols.shape → (∀ id, ¬ ours id → S.get id = s.symbols.get id) →
    P { s with symbols := S }
  /-- What stands in a container of the unit belongs to the unit. -/
  nested : ∀ {s id name}, P s → ours id → ours (((s.symbols.member? ⟨id, name⟩).bind (·.nested)).getD id)
  /-- Members are begun and done. -/
  mark : ∀ {s key own}, P s → own.state ≠ .pending → P (s.mark key own)
  /-- The path of an import is noted if it was unknown when it was asked for. -/
  path : ∀ {s t key path}, P s → s.paths.lookup key = none → P t →
    P { t with paths := (key, path) :: t.paths }
  body : ∀ {s key body}, P s → P { s with bodies := (key, body) :: s.bodies }
  fresh : ∀ {s nextLocal}, P s → P { s with nextLocal }
  evaluate : ∀ ask, services.evaluate = some ask → ∀ symbols init s, P s →
    P { s with host := (ask symbols init s.host).2 }
  visible : ∀ ask, services.visible = some ask → ∀ symbol s, P s →
    P { s with host := (ask symbol s.host).2 }

namespace Check

/-- The state behind a step. -/
def stateAfter : EStateM.Result TypeError (Checking σ) α → Checking σ
  | .ok _ s | .error _ s => s

theorem stateAfter_get_bind (f : Checking σ → Check σ α) (s : Checking σ) :
    stateAfter ((get >>= f) s) = stateAfter (f s s) := rfl

/-- Two steps do the same where an invariant holds, and keep it, also when they refuse the unit. -/
def Agree (P : Checking σ → Prop) (x y : Check σ α) : Prop :=
  ∀ s, P s → x s = y s ∧ P (stateAfter (x s))

/-- A step keeps an invariant. -/
abbrev Keeps (P : Checking σ → Prop) (x : Check σ α) : Prop := Agree P x x

/-- A step that leaves the state alone. -/
theorem agree_still {x : Check σ α} (still : ∀ s, stateAfter (x s) = s) : Keeps P x := by
  intro s holds
  refine ⟨rfl, ?_⟩
  rw [still s]
  exact holds

theorem agree_pure (a : α) : Keeps P (pure a : Check σ α) := agree_still fun _ => rfl

theorem agree_fail (span : Span) (cause : TypeCause) : Keeps P (fail span cause : Check σ α) :=
  agree_still fun _ => rfl

theorem agree_get : Keeps P (get : Check σ (Checking σ)) := agree_still fun _ => rfl

theorem agree_symbols : Keeps P (Check.symbols : Check σ Symbols) := agree_still fun _ => rfl

theorem agree_text (type : Ty) : Keeps P (Check.text type : Check σ String) := agree_still fun _ => rfl

theorem agree_progress? (key : MemberKey) : Keeps P (progress? key : Check σ (Option Progress)) :=
  agree_still fun _ => rfl

theorem agree_modify {f : Checking σ → Checking σ} (kept : ∀ s, P s → P (f s)) :
    Keeps P (modify f : Check σ PUnit) :=
  fun s holds => ⟨rfl, kept s holds⟩

/-- Steps one after the other, where the second one sees what the first can give. -/
theorem agree_bindOk {x y : Check σ α} {f g : α → Check σ β} (first : Agree P x y)
    (second : ∀ s a t, P s → x s = .ok a t → Agree P (f a) (g a)) : Agree P (x >>= f) (y >>= g) := by
  intro s holds
  obtain ⟨same, after⟩ := first s holds
  show EStateM.bind x f s = EStateM.bind y g s ∧ P (stateAfter (EStateM.bind x f s))
  unfold EStateM.bind
  rw [← same]
  cases ran : x s with
  | ok a t =>
    rw [ran] at after
    exact second s a t holds ran t after
  | error refused t =>
    rw [ran] at after
    exact ⟨rfl, after⟩

theorem agree_bind {x y : Check σ α} {f g : α → Check σ β} (first : Agree P x y)
    (second : ∀ a, Agree P (f a) (g a)) : Agree P (x >>= f) (y >>= g) :=
  agree_bindOk first fun _ a _ _ _ => second a

/-- A step under a condition, in front of others. -/
theorem agree_when {c : Prop} [Decidable c] {step same : Check σ α} {further other : Check σ β}
    (first : Agree P step same) (second : Agree P further other) :
    Agree P (if c then step >>= fun _ => further else further)
      (if c then same >>= fun _ => other else other) := by
  by_cases holds : c
  · rw [if_pos holds, if_pos holds]
    exact agree_bind first fun _ => second
  · rw [if_neg holds, if_neg holds]
    exact second

/-- A refusal under a condition that names a type. -/
theorem agree_whenText {c : Prop} [Decidable c] {type : Ty} {span : Span} {cause : String → TypeCause}
    {further other : Check σ β} (second : Agree P further other) :
    Agree P (if c then Check.text type >>= fun text =>
        (fail span (cause text) : Check σ PUnit) >>= fun _ => further else further)
      (if c then Check.text type >>= fun text =>
        (fail span (cause text) : Check σ PUnit) >>= fun _ => other else other) := by
  by_cases holds : c
  · rw [if_pos holds, if_pos holds]
    exact agree_bind (agree_text _) fun _ => agree_bind (agree_fail _ _) fun _ => second
  · rw [if_neg holds, if_neg holds]
    exact second

/-- A refusal under a condition that names two types. -/
theorem agree_whenTexts {c : Prop} [Decidable c] {one two : Ty} {span : Span}
    {cause : String → String → TypeCause} {further other : Check σ β} (second : Agree P further other) :
    Agree P (if c then Check.text one >>= fun first => Check.text two >>= fun second =>
        (fail span (cause first second) : Check σ PUnit) >>= fun _ => further else further)
      (if c then Check.text one >>= fun first => Check.text two >>= fun second =>
        (fail span (cause first second) : Check σ PUnit) >>= fun _ => other else other) := by
  by_cases holds : c
  · rw [if_pos holds, if_pos holds]
    refine agree_bind (agree_text _) fun _ => agree_bind (agree_text _) fun _ => ?_
    exact agree_bind (agree_fail _ _) fun _ => second
  · rw [if_neg holds, if_neg holds]
    exact second

theorem agree_mapM {items : List α} {f g : α → Check σ β} (each : ∀ a, Agree P (f a) (g a)) :
    Agree P (items.mapM f) (items.mapM g) := by
  induction items with
  | nil => exact agree_pure _
  | cons first rest ih =>
    rw [List.mapM_cons, List.mapM_cons]
    exact agree_bind (each first) fun _ => agree_bind ih fun _ => agree_pure _

theorem agree_optionMapM {item : Option α} {f g : α → Check σ β} (each : ∀ a, Agree P (f a) (g a)) :
    Agree P (item.mapM f) (item.mapM g) := by
  cases item with
  | none => exact agree_pure _
  | some own => exact agree_bind (each own) fun _ => agree_pure _

theorem agree_forInMem {items : List α} {f g : α → PUnit → Check σ (ForInStep PUnit)}
    (each : ∀ a ∈ items, ∀ u, Agree P (f a u) (g a u)) (start : PUnit) :
    Agree P (forIn items start f) (forIn items start g) := by
  induction items generalizing start with
  | nil => exact agree_pure _
  | cons first rest ih =>
    rw [List.forIn_cons, List.forIn_cons]
    refine agree_bind (each first List.mem_cons_self start) fun step => ?_
    cases step with
    | done _ => exact agree_pure _
    | yield _ => exact ih (fun a listed => each a (List.mem_cons_of_mem _ listed)) _

theorem agree_forIn {items : List α} {f g : α → PUnit → Check σ (ForInStep PUnit)}
    (each : ∀ a u, Agree P (f a u) (g a u)) (start : PUnit) :
    Agree P (forIn items start f) (forIn items start g) :=
  agree_forInMem (fun a _ => each a) start

variable {services : Services σ} {ours : ContainerId → Prop} (stable : services.Stable ours P)
include stable

theorem agree_setProgress {key : MemberKey} {own : Progress} (begun : own.state ≠ .pending) :
    Keeps P (setProgress key own : Check σ Unit) :=
  agree_modify fun _ holds => stable.mark holds begun

theorem agree_modifyMember {key : MemberKey} (owned : ours key.owner) {f : MemberSymbol → MemberSymbol}
    (fills : ∀ member, (f member).shape = member.shape) : Keeps P (modifyMember key f : Check σ Unit) := by
  refine agree_modify fun s holds => stable.symbols holds (s.symbols.shape_modifyMember key fills) ?_
  intro id other
  have differs : key.owner ≠ id := fun same => other (same ▸ owned)
  exact Symbols.get_modify_other differs _

theorem agree_freshLocal : Keeps P (freshLocal : Check σ LocalId) :=
  fun _ holds => ⟨rfl, stable.fresh holds⟩

end Check

namespace Typing

open Check

variable {services : Services σ} {ours : ContainerId → Prop} {env : CheckEnv σ} {visit other : Visit σ}

section

variable (visits : ∀ key, Agree P (visit key) (other key))
include visits

theorem agree_memberType (key : MemberKey) (member : MemberSymbol) (use : Span) :
    Agree P (memberType visit key member use) (memberType other key member use) := by
  refine agree_bind (agree_progress? key) fun own => ?_
  cases own with
  | none => exact agree_pure _
  | some own =>
    refine agree_when (agree_fail _ _) (agree_when (visits key) ?_)
    exact agree_bind agree_symbols fun _ => agree_pure _

theorem agree_memberAccess (key : MemberKey) (member : MemberSymbol) (onThis callee : Bool) (span : Span) :
    Agree P (memberAccess visit key member onThis callee span)
      (memberAccess other key member onThis callee span) := by
  refine agree_bind agree_symbols fun _ => ?_
  refine agree_bind (agree_memberType visits key member span) fun _ => ?_
  dsimp only
  split
  · refine agree_bind agree_symbols fun _ => ?_
    exact agree_when (agree_fail _ _) (agree_pure _)
  · exact agree_pure _

theorem agree_ownMember (innermost callee : Bool) (span : Span) (name : String) (id : ContainerId) :
    Agree P (ownMember visit innermost callee span name id)
      (ownMember other innermost callee span name id) := by
  refine agree_bind agree_symbols fun symbols => ?_
  dsimp only
  split
  · exact agree_pure _
  · split
    · exact agree_pure _
    · refine agree_when (agree_fail _ _) ?_
      exact agree_bind (agree_memberAccess visits _ _ _ _ _) fun _ => agree_pure _

theorem agree_select (span : Span) (object : TypedExpr) (name : String) (callee : Bool) :
    Agree P (select visit span object name callee) (select other span object name callee) := by
  unfold select
  split
  · exact agree_bind (agree_text _) fun _ => agree_fail _ _
  · refine agree_bind agree_symbols fun symbols => ?_
    dsimp only
    split
    · exact agree_bind (agree_text _) fun _ => agree_fail _ _
    · split
      · exact agree_pure _
      · refine agree_when (agree_fail _ _) ?_
        exact agree_bind (agree_memberAccess visits _ _ _ _ _) fun _ => agree_pure _

theorem agree_selectAll (span : Span) (callee : Bool) (object : TypedExpr) (path : List String) :
    Agree P (selectAll visit span callee object path) (selectAll other span callee object path) := by
  induction path generalizing object with
  | nil => exact agree_pure _
  | cons name rest ih =>
    exact agree_bind (agree_select visits span object name _) fun next => ih next

omit visits in
theorem agree_globalName (span : Span) (name : String) (callee : Bool) :
    Keeps P (globalName env span name callee) := by
  unfold globalName
  split
  · exact agree_pure _
  · split
    · split
      · exact agree_pure _
      · exact agree_fail _ _
    · exact agree_fail _ _

omit visits in
/-- The path of an import that was resolved before. -/
theorem importPath_known {own : ScopedImport} {scope : Scope} {s : Checking σ} {path : TypedExpr}
    (known : s.paths.lookup own.key = some path) : importPath env visit own scope s = .ok path s := by
  rw [importPath]
  exact (bind_of_ok rfl).trans (by rw [known]; rfl)

omit visits in
/-- The path of an import that is resolved for the first time. -/
theorem importPath_unknown {own : ScopedImport} {scope : Scope} {s : Checking σ}
    (unknown : s.paths.lookup own.key = none) :
    importPath env visit own scope s = (do
      let path ← resolvePath env visit own.decl.span own.decl.head own.decl.tail false scope
      if path.type.container?.isNone then
        Check.fail own.decl.span (.badImportPath own.decl.pathText)
      modify fun s => { s with paths := (own.key, path) :: s.paths }
      return path : Check σ TypedExpr) s := by
  rw [importPath]
  exact (bind_of_ok rfl).trans (by rw [unknown])

omit visits in
/-- The path of an import is noted when it is asked for. -/
theorem importPath_noted {own : ScopedImport} {scope : Scope} {s t : Checking σ} {path : TypedExpr}
    (run : importPath env visit own scope s = .ok path t) : t.paths.lookup own.key = some path := by
  cases known : s.paths.lookup own.key with
  | some found =>
    rw [importPath_known known] at run
    cases run
    exact known
  | none =>
    rw [importPath_unknown known] at run
    simp only [Check.bind_ok, Check.guard_ok, Check.modify_ok, Check.pure_ok] at run
    obtain ⟨found, between, -, -, _, _, rfl, rfl, rfl⟩ := run
    exact List.lookup_cons_self

variable (stable : services.Stable ours P)
include stable

/-- Lookups follow the imports of a frame and the frames of a scope, and so does the induction. -/
theorem agree_resolve (env : CheckEnv σ) :
    (∀ span name callee innermost scope,
      Agree P (resolveName env visit span name callee innermost scope)
        (resolveName env other span name callee innermost scope)) ∧
    (∀ span name callee frame outer imports,
      Agree P (resolveWildcard env visit span name callee frame outer imports)
        (resolveWildcard env other span name callee frame outer imports)) ∧
    (∀ span head tail callee scope,
      Agree P (resolvePath env visit span head tail callee scope)
        (resolvePath env other span head tail callee scope)) ∧
    ∀ own scope, Agree P (importPath env visit own scope) (importPath env other own scope) := by
  refine resolveName.mutual_induct _ _ _ _ ?_ ?_ ?_ ?_ ?_ ?_ ?_ ?_
  · intro span name callee innermost
    rw [resolveName, resolveName]
    exact agree_globalName span name callee
  · intro span name callee innermost frame outer found bound
    rw [resolveName, resolveName]
    simp only [bound]
    exact agree_pure _
  · intro span name callee innermost frame outer unbound selected wildcards further
    rw [resolveName_unbound unbound, resolveName_unbound unbound]
    refine agree_bind ?_ fun own => ?_
    · split
      · exact agree_ownMember visits _ _ _ _ _
      · exact agree_pure _
    · split
      · exact agree_pure _
      · split
        next found sought =>
          exact agree_bind (selected found sought) fun _ => agree_pure _
        next =>
          refine agree_bind wildcards fun own => ?_
          cases own with
          | some found => exact agree_pure _
          | none => exact further
  · intro span name callee frame outer
    rw [resolveWildcard, resolveWildcard]
    exact agree_pure _
  · intro span name callee frame outer own earlier wildcard path member further
    rw [resolveWildcard.eq_def env visit, resolveWildcard.eq_def env other]
    simp only [wildcard, if_true]
    refine agree_bind path fun target => agree_bind agree_symbols fun symbols => ?_
    split
    · exact agree_bind member fun _ => agree_pure _
    · exact further
  · intro span name callee frame outer own earlier named further
    rw [resolveWildcard.eq_def env visit, resolveWildcard.eq_def env other]
    simp only [named]
    exact further
  · intro span head tail callee scope name
    rw [resolvePath, resolvePath]
    exact agree_bind name fun first => agree_selectAll visits span callee first tail
  · intro own scope path s holds
    cases cached : s.paths.lookup own.key with
    | some known =>
      rw [importPath_known cached, importPath_known cached]
      exact ⟨rfl, holds⟩
    | none =>
      rw [importPath_unknown cached, importPath_unknown cached]
      refine agree_bind path (fun typed => agree_when (agree_fail _ _) ?_) s holds
      refine agree_bind (agree_modify fun t later => ?_) fun _ => agree_pure _
      exact stable.path holds cached later

theorem agree_resolveType (scope : Scope) (ref : TypeRef) :
    Agree P (resolveType env visit scope ref) (resolveType env other scope ref) := by
  obtain ⟨-, -, paths, -⟩ := agree_resolve visits stable env
  unfold resolveType
  split
  · exact agree_pure _
  · exact agree_pure _
  · exact agree_pure _
  · exact agree_fail _ _
  · refine agree_bind (paths _ _ _ _ _) fun path => ?_
    split
    · refine agree_bind agree_symbols fun symbols => ?_
      split
      · exact agree_pure _
      · exact agree_fail _ _
    · exact agree_fail _ _

theorem agree_importedConversions (frame : Frame) (outer : Scope) (imports : List ScopedImport) :
    Agree P (importedConversions env visit frame outer imports)
      (importedConversions env other frame outer imports) := by
  obtain ⟨-, -, -, imported⟩ := agree_resolve visits stable env
  induction imports with
  | nil => exact agree_pure _
  | cons own earlier ih =>
    refine agree_bind (imported _ _) fun path => ?_
    refine agree_bind agree_symbols fun symbols => ?_
    exact agree_bind ih fun _ => agree_pure _

theorem agree_conversions (scope : Scope) :
    Agree P (conversions env visit scope) (conversions env other scope) := by
  induction scope with
  | nil => exact agree_pure _
  | cons frame outer ih =>
    refine agree_bind agree_symbols fun symbols => ?_
    refine agree_bind (agree_importedConversions visits stable _ _ _) fun imported => ?_
    exact agree_bind ih fun _ => agree_pure _

theorem agree_applyFirst (scope : Scope) (operand : TypedExpr) (candidates : List Candidate) :
    Agree P (applyFirst env visit scope operand candidates)
      (applyFirst env other scope operand candidates) := by
  obtain ⟨names, -, -, -⟩ := agree_resolve visits stable env
  induction candidates with
  | nil => exact agree_bind (agree_text _) fun _ => agree_fail _ _
  | cons candidate rest ih =>
    refine agree_bind (names _ _ _ _ _) fun callee => ?_
    refine agree_bind agree_symbols fun symbols => ?_
    dsimp only
    split
    · exact agree_pure _
    · exact ih

theorem agree_toText (scope : Scope) (operand : TypedExpr) :
    Agree P (toText env visit scope operand) (toText env other scope operand) := by
  unfold toText
  split
  · exact agree_pure _
  · exact agree_bind (agree_conversions visits stable scope) fun _ =>
      agree_applyFirst visits stable scope operand _

omit visits stable in
theorem agree_asValue (typed : TypedExpr) : Keeps P (asValue typed : Check σ TypedExpr) := by
  unfold asValue
  split
  · exact agree_pure _
  · exact agree_bind (agree_text _) fun _ => agree_fail _ _

theorem agree_checkBinary (scope : Scope) (span : Span) (op : BinaryOp) (left right : TypedExpr) :
    Agree P (checkBinary env visit scope span op left right)
      (checkBinary env other scope span op left right) := by
  unfold checkBinary
  split
  · refine agree_bind (agree_toText visits stable _ _) fun _ => ?_
    exact agree_bind (agree_toText visits stable _ _) fun _ => agree_pure _
  · exact agree_whenTexts (agree_pure _)
  · exact agree_whenTexts (agree_pure _)
  · exact agree_whenTexts (agree_pure _)

omit visits stable in
theorem agree_applied (span : Span) (callee : TypedExpr) :
    Keeps P (applied span callee : Check σ Applied) := by
  unfold applied
  split
  · exact agree_pure _
  · split
    · exact agree_fail _ _
    · refine agree_bind agree_symbols fun symbols => ?_
      split
      · exact agree_fail _ _
      · split
        · exact agree_pure _
        · exact agree_fail _ _

omit visits stable in
theorem agree_checkCount (span : Span) (what : String) (expected found : Nat) :
    Keeps P (checkCount span what expected found : Check σ Unit) := by
  unfold checkCount
  split
  · exact agree_fail _ _
  · exact agree_pure _

omit visits stable in
theorem agree_checkArgument (what : String) (param : Param) (arg : TypedExpr) :
    Keeps P (checkArgument what param arg : Check σ Unit) := by
  unfold checkArgument
  split
  · refine agree_bind (agree_text _) fun _ => ?_
    exact agree_bind (agree_text _) fun _ => agree_fail _ _
  · exact agree_pure _

omit visits stable in
theorem agree_targetClass (span : Span) (target : TypedExpr) :
    Keeps P (targetClass span target : Check σ ContainerId) := by
  unfold targetClass
  split
  · refine agree_bind agree_symbols fun symbols => ?_
    split
    · exact agree_pure _
    · exact agree_bind (agree_text _) fun _ => agree_fail _ _
  · exact agree_bind (agree_text _) fun _ => agree_fail _ _

theorem agree_checkLocal (scope : Scope) (span : Span) (name : String) (ascription : Option TypeRef)
    (locals : List (String × Local)) (init : TypedExpr) :
    Agree P (checkLocal env visit scope span name ascription locals init)
      (checkLocal env other scope span name ascription locals init) := by
  have named : Keeps P (if (locals.lookup name).isSome = true
      then (fail span (.duplicateLocal name) : Check σ PUnit) >>= fun _ => do
        return ⟨← freshLocal, init.type⟩
      else do return (⟨← freshLocal, init.type⟩ : Local)) :=
    agree_when (agree_fail _ _)
      (agree_bind (agree_freshLocal stable) fun _ => agree_pure _)
  unfold checkLocal
  cases ascription with
  | none => exact named
  | some ref =>
    refine agree_bind (agree_resolveType visits stable _ ref) fun declared => ?_
    exact agree_whenTexts named

set_option linter.unusedSectionVars false in
mutual

theorem agree_checkExpr (scope : Scope) (callee : Bool) (expr : Expr) :
    Agree P (checkExpr env visit scope callee expr) (checkExpr env other scope callee expr) := by
  cases expr with
  | int span value => exact agree_pure _
  | str span value => exact agree_pure _
  | unit span => exact agree_pure _
  | this span =>
    refine agree_bind agree_symbols fun symbols => ?_
    split
    · exact agree_pure _
    · exact agree_fail _ _
  | name span name => exact (agree_resolve visits stable env).1 _ _ _ _ _
  | select span object member =>
    exact agree_bind (agree_checkExpr scope false object) fun _ => agree_select visits _ _ _ _
  | call span function args =>
    refine agree_bind (agree_checkExpr scope true function) fun function => ?_
    refine agree_bind (agree_applied span function) fun what => ?_
    cases what with
    | builtinShow =>
      refine agree_when (agree_fail _ _) ?_
      exact agree_bind (agree_checkValues scope args) fun _ => agree_pure _
    | function key member =>
      refine agree_bind (agree_checkCount _ _ _ _) fun _ => ?_
      refine agree_bind (agree_checkArguments scope _ _ args) fun _ => ?_
      exact agree_bind agree_symbols fun _ => agree_pure _
  | new span target args =>
    refine agree_bind (agree_checkExpr scope false target) fun target => ?_
    refine agree_bind (agree_targetClass span target) fun cls => ?_
    refine agree_bind agree_symbols fun symbols => ?_
    refine agree_bind (agree_checkCount _ _ _ _) fun _ => ?_
    exact agree_bind (agree_checkArguments scope _ _ args) fun _ => agree_pure _
  | binary span op left right =>
    refine agree_bind (agree_checkExpr scope false left) fun first => ?_
    refine agree_bind (agree_asValue first) fun first => ?_
    refine agree_bind (agree_checkExpr scope false right) fun second => ?_
    refine agree_bind (agree_asValue second) fun second => ?_
    exact agree_checkBinary visits stable _ _ _ _ _
  | unary span op operand =>
    refine agree_bind (agree_checkExpr scope false operand) fun own => ?_
    refine agree_bind (agree_asValue own) fun own => ?_
    exact agree_whenText (agree_pure _)
  | cond span condition thenBranch elseBranch =>
    rw [checkExpr, checkExpr]
    refine agree_bind (agree_checkExpr scope false condition) fun test => ?_
    refine agree_bind (agree_asValue test) fun test => ?_
    refine agree_whenText ?_
    refine agree_bind (agree_checkExpr scope false thenBranch) fun first => ?_
    refine agree_bind (agree_asValue first) fun first => ?_
    cases elseBranch with
    | none => exact agree_pure _
    | some elseBranch =>
      refine agree_bind (agree_checkExpr scope false elseBranch) fun second => ?_
      refine agree_bind (agree_asValue second) fun second => ?_
      exact agree_whenTexts (agree_pure _)
  | block span body =>
    exact agree_bind (agree_checkBody scope [] .unit body) fun _ => agree_pure _

theorem agree_checkValues (scope : Scope) (args : List Expr) :
    Agree P (checkValues env visit scope args) (checkValues env other scope args) := by
  cases args with
  | nil => exact agree_pure _
  | cons arg rest =>
    refine agree_bind (agree_checkExpr scope false arg) fun own => ?_
    refine agree_bind (agree_asValue own) fun own => ?_
    exact agree_bind (agree_checkValues scope rest) fun _ => agree_pure _

theorem agree_checkArguments (scope : Scope) (what : String) (params : List Param) (args : List Expr) :
    Agree P (checkArguments env visit scope what params args)
      (checkArguments env other scope what params args) := by
  cases args with
  | nil => exact agree_pure _
  | cons arg rest =>
    have others (own : TypedExpr) :
        Agree P (do return own :: (← checkArguments env visit scope what params.tail rest))
          (do return own :: (← checkArguments env other scope what params.tail rest)) :=
      agree_bind (agree_checkArguments scope what params.tail rest) fun _ => agree_pure _
    refine agree_bind (agree_checkExpr scope false arg) fun own => ?_
    refine agree_bind (agree_asValue own) fun own => ?_
    split
    · exact agree_bind (agree_checkArgument _ _ _) fun _ => others own
    · exact others own

theorem agree_checkBody (scope : Scope) (locals : List (String × Local)) (last : Ty) (body : List Stmt) :
    Agree P (checkBody env visit scope locals last body) (checkBody env other scope locals last body) := by
  cases body with
  | nil => exact agree_pure _
  | cons first rest =>
    cases first with
    | val span name ascription init =>
      refine agree_bind (agree_checkExpr _ false init) fun own => ?_
      refine agree_bind (agree_asValue own) fun own => ?_
      refine agree_bind (agree_checkLocal visits stable _ _ _ _ _ _) fun found => ?_
      exact agree_bind (agree_checkBody scope _ _ rest) fun _ => agree_pure _
    | expr value =>
      refine agree_bind (agree_checkExpr _ false value) fun own => ?_
      refine agree_bind (agree_asValue own) fun own => ?_
      exact agree_bind (agree_checkBody scope _ _ rest) fun _ => agree_pure _

end

theorem agree_checkValue (scope : Scope) (expr : Expr) :
    Agree P (checkValue env visit scope expr) (checkValue env other scope expr) :=
  agree_bind (agree_checkExpr visits stable scope false expr) fun own => agree_asValue own

end

section

variable (visits : ∀ key, Agree P (visit key) (other key)) (stable : services.Stable ours P)
include stable

theorem agree_keepBody (key : MemberKey) (body : CheckedBody) : Keeps P (keepBody key body : Check σ Unit) :=
  agree_modify fun _ holds => stable.body holds

theorem agree_markTyped (key : MemberKey) : Keeps P (markTyped key : Check σ Unit) :=
  agree_setProgress stable (by simp)

variable (same : env.services = services)
include same

theorem agree_inlineValue (decl : ValDecl) (init : TypedExpr) : Keeps P (inlineValue env decl init) := by
  intro s holds
  refine ⟨rfl, ?_⟩
  unfold inlineValue
  cases asked : env.services.evaluate with
  | none => exact holds
  | some ask =>
    have kept := stable.evaluate ask (same ▸ asked) s.symbols init s holds
    dsimp only
    generalize answered : ask s.symbols init s.host = answer at kept
    obtain ⟨reason | value, host⟩ := answer
    · rw [stateAfter_get_bind, answered]
      exact kept
    · rw [stateAfter_get_bind, answered]
      exact kept

include visits

omit same in
theorem agree_ascribe (scope : Scope) {key : MemberKey} (owned : ours key.owner) (ref : Option TypeRef) :
    Agree P (ref.mapM fun ref => do
        let type ← resolveType env visit scope ref
        Check.modifyMember key ({ · with type })
        markTyped key
        return type)
      (ref.mapM fun ref => do
        let type ← resolveType env other scope ref
        Check.modifyMember key ({ · with type })
        markTyped key
        return type) := by
  refine agree_optionMapM fun ref => ?_
  refine agree_bind (agree_resolveType visits stable scope ref) fun type => ?_
  refine agree_bind (agree_modifyMember stable owned fun _ => rfl) fun _ => ?_
  exact agree_bind (agree_markTyped stable key) fun _ => agree_pure _

theorem agree_checkVal (scope : Scope) {key : MemberKey} (owned : ours key.owner) (decl : ValDecl) :
    Agree P (checkVal env visit scope key decl) (checkVal env other scope key decl) := by
  refine agree_bind (agree_ascribe visits stable scope owned decl.ascription) fun declared => ?_
  refine agree_bind (agree_checkValue visits stable scope decl.init) fun init => ?_
  have kept : Keeps P (if decl.mode = .inline
      then if init.type ≠ .int
        then (fail decl.span (.inlineType decl.name) : Check σ PUnit) >>= fun _ => do
          let constant ← inlineValue env decl init
          Check.modifyMember key ({ · with constant })
          keepBody key (.val init)
        else do
          let constant ← inlineValue env decl init
          Check.modifyMember key ({ · with constant })
          keepBody key (.val init)
      else keepBody key (.val init)) := by
    split
    · refine agree_when (agree_fail _ _) ?_
      refine agree_bind (agree_inlineValue stable same decl init) fun constant => ?_
      exact agree_bind (agree_modifyMember stable owned fun _ => rfl) fun _ => agree_keepBody stable _ _
    · exact agree_keepBody stable _ _
  cases declared with
  | some type => exact agree_whenTexts kept
  | none => exact agree_bind (agree_modifyMember stable owned fun _ => rfl) fun _ => kept

omit same in
theorem agree_checkParams (scope : Scope) {key : MemberKey} (owned : ours key.owner) (function : String)
    (locals : List (String × Local)) (params : List ParamDecl) :
    Agree P (checkParams env visit scope key function locals params)
      (checkParams env other scope key function locals params) := by
  induction params generalizing locals with
  | nil => exact agree_pure _
  | cons param rest ih =>
    refine agree_when (agree_fail _ _) ?_
    refine agree_bind (agree_resolveType visits stable scope param.type) fun type => ?_
    refine agree_bind (agree_freshLocal stable) fun id => ?_
    exact agree_bind (agree_modifyMember stable owned fun _ => rfl) fun _ => ih _

omit same in
theorem agree_checkFunc (scope : Scope) {key : MemberKey} (owned : ours key.owner) (decl : DefDecl) :
    Agree P (checkFunc env visit scope key decl) (checkFunc env other scope key decl) := by
  refine agree_bind (agree_checkParams visits stable scope owned _ _ _) fun locals => ?_
  refine agree_bind (agree_ascribe visits stable scope owned decl.result) fun declared => ?_
  refine agree_bind (agree_checkValue visits stable _ decl.body) fun body => ?_
  cases declared with
  | some type => exact agree_whenTexts (agree_keepBody stable _ _)
  | none => exact agree_bind (agree_modifyMember stable owned fun _ => rfl) fun _ => agree_keepBody stable _ _

omit visits in
theorem agree_visible (decl : ForeignDecl) (visible : String → σ → Bool × σ)
    (asked : env.services.visible = some visible) (further : Check σ Unit) (next : Keeps P further) :
    Keeps P (do
      let s ← get
      let (found, host) := visible decl.name s.host
      set { s with host }
      if !found then fail decl.span (.foreignMissing decl.name)
      further) := by
  intro s holds
  have kept := stable.visible visible (same ▸ asked) decl.name s holds
  have told : Keeps P (if (!(visible decl.name s.host).1) = true
      then (fail decl.span (.foreignMissing decl.name) : Check σ PUnit) >>= fun _ => further
      else further) :=
    agree_when (agree_fail _ _) next
  exact told { s with host := (visible decl.name s.host).2 } kept

theorem agree_checkForeign (scope : Scope) {key : MemberKey} (owned : ours key.owner) (decl : ForeignDecl) :
    Agree P (checkForeign env visit scope key decl) (checkForeign env other scope key decl) := by
  unfold checkForeign
  refine agree_bind (agree_forIn (fun param _ => ?_) _) fun _ => ?_
  · refine agree_bind (agree_resolveType visits stable scope param.type) fun type => ?_
    exact agree_bind (agree_modifyMember stable owned fun _ => rfl) fun _ => agree_pure _
  · refine agree_bind (agree_resolveType visits stable scope decl.result) fun type => ?_
    refine agree_bind (agree_modifyMember stable owned fun _ => rfl) fun _ => ?_
    refine agree_bind (agree_markTyped stable key) fun _ => ?_
    cases asked : env.services.visible with
    | none => exact agree_keepBody stable _ _
    | some visible => exact agree_visible stable same decl visible asked _ (agree_keepBody stable _ _)

theorem agree_checkPending {key : MemberKey} (owned : ours key.owner) (decl : PendingDecl) :
    Agree P (checkPending env visit key decl) (checkPending env other key decl) := by
  unfold checkPending
  split
  · exact agree_checkVal visits stable same _ owned _
  · exact agree_checkFunc visits stable _ owned _
  · exact agree_checkForeign visits stable same _ owned _
  · exact agree_pure _

end

end Typing

end ScriptShell
