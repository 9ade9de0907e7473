import ScriptShell.Proofs.Order.Units
import ScriptShell.Proofs.Typing.Fuel

/-! The search for an implicit conversion. What a scope offers is fixed by its containers and by what its
imports reach: the steps of a check neither change which members convert nor what a resolved import reaches.
The offers are tried in order, each by the lookup of its bare name. A search ends at the first one that fits
or behind the last one, unless a lookup refuses the unit on the way: then the search ends with that refusal,
also where a later offer would fit. -/
namespace ScriptShell

variable {σ : Type}

/-- What a check does not change once it is there: the shape of symbols, and the paths of imports. -/
structure Checking.Recalls (s t : Checking σ) : Prop where
  shape : t.symbols.shape = s.symbols.shape
  paths : ∀ {key path}, s.paths.lookup key = some path → t.paths.lookup key = some path

namespace Checking.Recalls

variable {s t u : Checking σ}

theorem refl (s : Checking σ) : s.Recalls s := ⟨rfl, id⟩

theorem trans (first : s.Recalls t) (second : t.Recalls u) : s.Recalls u :=
  ⟨second.shape.trans first.shape, fun known => second.paths (first.paths known)⟩

theorem stable (services : Services σ) (s : Checking σ) : services.Stable (fun _ => True) s.Recalls where
  symbols kept same _ := ⟨same.trans kept.shape, kept.paths⟩
  nested _ _ := trivial
  mark kept _ := ⟨kept.shape, kept.paths⟩
  path := by
    intro before later key path kept unknown still
    refine ⟨still.shape, fun {other found} known => ?_⟩
    have different : other ≠ key := by
      rintro rfl
      rw [kept.paths known] at unknown
      cases unknown
    rw [List.lookup_cons, beq_false_of_ne different]
    exact still.paths known
  body kept := ⟨kept.shape, kept.paths⟩
  fresh kept := ⟨kept.shape, kept.paths⟩
  evaluate _ _ _ _ _ kept := ⟨kept.shape, kept.paths⟩
  visible _ _ _ _ kept := ⟨kept.shape, kept.paths⟩

end Checking.Recalls

/-- A step that keeps what there is to recall has kept it. -/
theorem Check.Keeps.recalls {α : Type} {x : Check σ α} {s t : Checking σ} {a : α}
    (keeps : Check.Keeps s.Recalls x) (run : x s = .ok a t) : s.Recalls t := by
  have kept := (keeps s (.refl s)).2
  rw [run] at kept
  exact kept

open Typing

/-- The conversions that an import offers whose path was resolved before. -/
def ScopedImport.offers (s : Checking σ) (own : ScopedImport) : List Candidate :=
  match (s.paths.lookup own.key).bind (·.type.container?) with
  | some id => pickedConversions s.symbols id own.decl
  | none => []

namespace Scope

/-- The conversions that a scope offers: frame by frame from the inside, those of the container first, then
those of the imports from the last to the first. -/
def offers (s : Checking σ) : Scope → List Candidate
  | [] => []
  | frame :: outer =>
    let own := match frame.container with
      | some id => ownConversions s.symbols id
      | none => []
    own ++ frame.imports.flatMap (·.offers s) ++ offers s outer

/-- The paths of all imports in sight were resolved before. -/
def Resolved (s : Checking σ) (scope : Scope) : Prop :=
  ∀ frame ∈ scope, ∀ own ∈ frame.imports, ∃ path, s.paths.lookup own.key = some path

end Scope

namespace Typing

/-- A candidate fits an operand: it is what its name stands for, it takes nothing but such an operand, and it
gives a text. -/
structure Candidate.Fits (s : Checking σ) (operand : TypedExpr) (candidate : Candidate) (callee : TypedExpr) :
    Prop where
  reached : callee.calleeMember? = some candidate.key
  takes : (((s.symbols.member? candidate.key).map (·.params)).getD []).map (·.type) = [operand.type]
  text : callee.type = .str

/-- The bare name of a candidate, looked up at the operand. -/
def Candidate.resolve (env : CheckEnv σ) (scope : Scope) (operand : TypedExpr) (candidate : Candidate) :
    Check σ TypedExpr :=
  resolveName env (visitMember env) operand.span candidate.name true true scope

/-- The names of candidates are looked up one after the other, and none of them fits. -/
inductive Passes (env : CheckEnv σ) (scope : Scope) (operand : TypedExpr) :
    Checking σ → List Candidate → Checking σ → Prop
  | nil : Passes env scope operand s [] s
  | cons (answer : candidate.resolve env scope operand s = .ok callee t)
      (misfit : ¬ candidate.Fits t operand callee) (others : Passes env scope operand t rest u) :
      Passes env scope operand s (candidate :: rest) u

/-- How a search among candidates ends: at the first one that fits, at the first one whose name cannot be
looked up, or behind all of them. -/
inductive Search (env : CheckEnv σ) (scope : Scope) (operand : TypedExpr) (s : Checking σ) :
    List Candidate → EStateM.Result TypeError (Checking σ) TypedExpr → Prop
  | found (passed : Passes env scope operand s front t)
      (answer : candidate.resolve env scope operand t = .ok callee u) (fits : candidate.Fits u operand callee) :
      Search env scope operand s (front ++ candidate :: back) (.ok (.call operand.span .str callee [operand]) u)
  | refused (passed : Passes env scope operand s front t)
      (refusal : candidate.resolve env scope operand t = .error error u) :
      Search env scope operand s (front ++ candidate :: back) (.error error u)
  | exhausted (passed : Passes env scope operand s candidates t) :
      Search env scope operand s candidates
        (.error ⟨.noConversion (t.symbols.typeText operand.type), operand.span.line, operand.span.columnStart⟩ t)

variable {env : CheckEnv σ} {scope : Scope} {operand : TypedExpr} {s t u : Checking σ}

theorem pickedConversions_of_shape {S T : Symbols} (same : T.shape = S.shape) (id : ContainerId)
    (decl : Import) : pickedConversions T id decl = pickedConversions S id decl := by
  have alike := (Symbols.Alike.refl S).of_shape rfl same
  have picks (name : String) :
      ((T.get id).find? name).any isConversion = ((S.get id).find? name).any isConversion := by
    have shapes := congrArg (Option.any isConversion) (alike.member? ⟨id, name⟩)
    simp only [Option.any_map] at shapes
    exact shapes
  simp only [pickedConversions, picks, alike.conversions]

/-- What an import offers is not changed by later steps. -/
theorem offers_of_recalls {own : ScopedImport} {path : TypedExpr}
    (known : s.paths.lookup own.key = some path) (recalls : s.Recalls t) : own.offers t = own.offers s := by
  unfold ScopedImport.offers
  rw [recalls.paths known, known]
  simp only [pickedConversions_of_shape recalls.shape]

theorem recalls_visit (s : Checking σ) (key : MemberKey) : Check.Keeps s.Recalls (visitMember env key) :=
  keeps_checkMember (Checking.Recalls.stable env.services s) rfl (fun _ _ _ => trivial) _ key

theorem importedConversions_offers {frame : Frame} {outer : Scope} {imports : List ScopedImport}
    {found : List Candidate}
    (run : importedConversions env (visitMember env) frame outer imports s = .ok found t) :
    s.Recalls t ∧ found = imports.flatMap (·.offers t) ∧
      ∀ own ∈ imports, ∃ path, t.paths.lookup own.key = some path := by
  induction imports generalizing s found with
  | nil =>
    obtain ⟨rfl, rfl⟩ := Check.pure_ok.mp run
    exact ⟨.refl s, rfl, by simp⟩
  | cons own earlier ih =>
    simp only [importedConversions, Check.bind_ok, Check.symbols_ok, Check.pure_ok] at run
    obtain ⟨path, between, resolved, _, _, ⟨rfl, rfl⟩, others, after, rest, rfl, rfl⟩ := run
    obtain ⟨-, -, -, paths⟩ := agree_resolve (recalls_visit s) (Checking.Recalls.stable env.services s) env
    have first : s.Recalls between := Check.Keeps.recalls (paths own _) resolved
    obtain ⟨second, rfl, known⟩ := ih rest
    have noted := importPath_noted resolved
    refine ⟨first.trans second, ?_, ?_⟩
    · rw [List.flatMap_cons, offers_of_recalls noted second, ScopedImport.offers, noted]
      rfl
    · rw [List.forall_mem_cons]
      exact ⟨⟨path, second.paths noted⟩, known⟩

/-- The candidates that a search starts with are what the scope offers. -/
theorem conversions_offers {found : List Candidate}
    (run : conversions env (visitMember env) scope s = .ok found t) :
    s.Recalls t ∧ found = scope.offers t ∧ scope.Resolved t := by
  induction scope generalizing s found with
  | nil =>
    obtain ⟨rfl, rfl⟩ := Check.pure_ok.mp run
    exact ⟨.refl s, rfl, by simp [Scope.Resolved]⟩
  | cons frame outer ih =>
    simp only [conversions, Check.bind_ok, Check.symbols_ok, Check.pure_ok] at run
    obtain ⟨_, _, ⟨rfl, rfl⟩, imported, between, picked, others, after, rest, rfl, rfl⟩ := run
    obtain ⟨first, rfl, known⟩ := importedConversions_offers picked
    obtain ⟨second, rfl, resolved⟩ := ih rest
    refine ⟨first.trans second, ?_, ?_⟩
    · have members (id : ContainerId) : ownConversions s.symbols id = ownConversions after.symbols id :=
        (Symbols.ownConversions_of_shape (first.trans second).shape id).symm
      have brought : frame.imports.flatMap (·.offers between) = frame.imports.flatMap (·.offers after) := by
        refine List.flatMap_congr fun own listed => ?_
        obtain ⟨path, noted⟩ := known own listed
        exact (offers_of_recalls noted second).symm
      rw [Scope.offers, brought]
      cases frame.container with
      | none => rfl
      | some id =>
        dsimp only
        rw [members id]
    · unfold Scope.Resolved
      rw [List.forall_mem_cons]
      refine ⟨fun own listed => ?_, resolved⟩
      obtain ⟨path, noted⟩ := known own listed
      exact ⟨path, second.paths noted⟩

namespace Search

variable {candidate : Candidate} {candidates : List Candidate} {callee : TypedExpr}
  {result : EStateM.Result TypeError (Checking σ) TypedExpr}

/-- A candidate that does not fit is passed over. -/
theorem cons (answer : candidate.resolve env scope operand s = .ok callee t)
    (misfit : ¬ candidate.Fits t operand callee) (search : Search env scope operand t candidates result) :
    Search env scope operand s (candidate :: candidates) result := by
  cases search with
  | found passed following fits => exact .found (.cons answer misfit passed) following fits
  | refused passed refusal => exact .refused (.cons answer misfit passed) refusal
  | exhausted passed => exact .exhausted (.cons answer misfit passed)

end Search

theorem applyFirst_refused {candidate : Candidate} {rest : List Candidate} {error : TypeError}
    (refusal : candidate.resolve env scope operand s = .error error t) :
    applyFirst env (visitMember env) scope operand (candidate :: rest) s = .error error t := by
  rw [applyFirst]
  exact Check.bind_of_error refusal

theorem applyFirst_answered {candidate : Candidate} {rest : List Candidate} {callee : TypedExpr}
    (answer : candidate.resolve env scope operand s = .ok callee t) :
    applyFirst env (visitMember env) scope operand (candidate :: rest) s =
      if callee.calleeMember? = some candidate.key &&
          (((t.symbols.member? candidate.key).map (·.params)).getD []).map (·.type) = [operand.type] &&
          callee.type = .str then .ok (.call operand.span .str callee [operand]) t
      else applyFirst env (visitMember env) scope operand rest t := by
  rw [applyFirst, Check.bind_of_ok (show resolveName _ _ _ _ _ _ _ s = .ok callee t from answer),
    Check.bind_of_ok (Check.symbols_ok.mpr ⟨rfl, rfl⟩)]
  split <;> rfl

theorem applyFirst_fits {candidate : Candidate} {rest : List Candidate} {callee : TypedExpr}
    (answer : candidate.resolve env scope operand s = .ok callee t) (fits : candidate.Fits t operand callee) :
    applyFirst env (visitMember env) scope operand (candidate :: rest) s =
      .ok (.call operand.span .str callee [operand]) t := by
  rw [applyFirst_answered answer, if_pos]
  simp only [Bool.and_eq_true, decide_eq_true_eq]
  exact ⟨⟨fits.reached, fits.takes⟩, fits.text⟩

theorem applyFirst_misfits {candidate : Candidate} {rest : List Candidate} {callee : TypedExpr}
    (answer : candidate.resolve env scope operand s = .ok callee t)
    (misfit : ¬ candidate.Fits t operand callee) :
    applyFirst env (visitMember env) scope operand (candidate :: rest) s =
      applyFirst env (visitMember env) scope operand rest t := by
  rw [applyFirst_answered answer, if_neg]
  simp only [Bool.and_eq_true, decide_eq_true_eq]
  rintro ⟨⟨reached, takes⟩, text⟩
  exact misfit ⟨reached, takes, text⟩

/-- Candidates that are passed over leave the search to the others. -/
theorem Passes.applyFirst {front : List Candidate} (passed : Passes env scope operand s front t)
    (rest : List Candidate) :
    applyFirst env (visitMember env) scope operand (front ++ rest) s =
      applyFirst env (visitMember env) scope operand rest t := by
  induction passed with
  | nil => rfl
  | cons answer misfit others ih =>
    rw [List.cons_append, applyFirst_misfits answer misfit, ih]

/-- The search is what it is specified to be: it has that end, and no other. -/
theorem applyFirst_iff {candidates : List Candidate}
    {result : EStateM.Result TypeError (Checking σ) TypedExpr} :
    applyFirst env (visitMember env) scope operand candidates s = result ↔
      Search env scope operand s candidates result := by
  constructor
  · rintro rfl
    induction candidates generalizing s with
    | nil => exact .exhausted .nil
    | cons candidate rest ih =>
      cases answer : candidate.resolve env scope operand s with
      | ok callee t =>
        by_cases fits : candidate.Fits t operand callee
        · rw [applyFirst_fits answer fits]
          exact .found .nil answer fits
        · rw [applyFirst_misfits answer fits]
          exact ih.cons answer fits
      | error error t =>
        rw [applyFirst_refused answer]
        exact .refused .nil answer
  · intro search
    cases search with
    | found passed answer fits => rw [passed.applyFirst _, applyFirst_fits answer fits]
    | refused passed refusal => rw [passed.applyFirst _, applyFirst_refused refusal]
    | exhausted passed =>
      have ends := passed.applyFirst []
      rw [List.append_nil] at ends
      rw [ends]
      rfl

/-- An operand that is no text is wrapped in the first conversion on offer that fits, unless an import in sight
or the name of a conversion in front of that one refuses the unit. -/
theorem conversion_search (env : CheckEnv σ) (scope : Scope) (operand : TypedExpr) (s : Checking σ)
    (result : EStateM.Result TypeError (Checking σ) TypedExpr) :
    toText env (visitMember env) scope operand s = result ↔
      if operand.type = .str then .ok operand s = result
      else (∃ error t, conversions env (visitMember env) scope s = .error error t ∧ .error error t = result) ∨
        ∃ t, conversions env (visitMember env) scope s = .ok (scope.offers t) t ∧
          Search env scope operand t (scope.offers t) result := by
  unfold toText
  split
  · rfl
  · cases gathered : conversions env (visitMember env) scope s with
    | ok found t =>
      obtain ⟨-, rfl, -⟩ := conversions_offers gathered
      rw [Check.bind_of_ok gathered, applyFirst_iff]
      constructor
      · intro search
        exact .inr ⟨t, rfl, search⟩
      · rintro (⟨error, _, impossible, -⟩ | ⟨_, same, search⟩)
        · cases impossible
        · obtain ⟨-, rfl⟩ := EStateM.Result.ok.inj same
          exact search
    | error error t =>
      rw [Check.bind_of_error gathered]
      constructor
      · intro same
        exact .inl ⟨error, t, rfl, same⟩
      · rintro (⟨_, _, same, ends⟩ | ⟨_, impossible, -⟩)
        · obtain ⟨rfl, rfl⟩ := EStateM.Result.error.inj same
          exact ends
        · cases impossible

end Typing

/-- A module with a conversion, and a class in it with a function of the same types in front of a use. -/
def Program.converting (implicit : Bool) : Program :=
  .ofMembers [.conversion true "d", .container (.mk default .classKind "A" false []
    [.conversion implicit "c", .container (.mk default .moduleKind "M" false []
      [.val ⟨default, "s", none, .strict, false, .binary default .concat (.int default 1) (.str default "a")⟩])])]

/-- A conversion that cannot be used stands in the way of one that fits: the function of the enclosing class
cannot be reached from the place, and the unit is refused for that instead of passing the function over. -/
theorem conversion_of_enclosing_class_refuses :
    (Program.converting false).accepted = true ∧ (Program.converting true).accepted = false := by
  decide +kernel

end ScriptShell
