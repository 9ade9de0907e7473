import ScriptShell.Proofs.Typing.Paths
import ScriptShell.Typing.Expression

/-! The check of an expression gives a well-typed tree. The proof follows the check function by
function. Locals are numbered upwards, so a number taken for a new local is above those in sight. -/
namespace ScriptShell.Typing

open Checking

variable {σ : Type} {env : CheckEnv σ} {base bound : Nat} {visit : Visit σ} {s s' : Checking σ}

theorem hasConversion_of_shape {S T : Symbols} (same : T.shape = S.shape)
    (has : S.HasConversion key) : T.HasConversion key := by
  obtain ⟨member, listed, named, converts⟩ := has
  have shapes := ContainerSymbol.members_eq_of_shape (Symbols.get_eq_of_shape same key.owner)
  have present : member.shape ∈ (T.get key.owner).members.map (·.shape) := by
    rw [shapes]
    exact List.mem_map_of_mem listed
  obtain ⟨later, kept, shaped⟩ := List.mem_map.mp present
  refine ⟨later, kept, (MemberSymbol.name_eq_of_shape shaped).trans named, ?_⟩
  simpa only [isConversion, MemberSymbol.kind_eq_of_shape shaped,
    MemberSymbol.implicit_eq_of_shape shaped] using converts

theorem hasConversion_own {S : Symbols} (listed : candidate ∈ ownConversions S owner) :
    S.HasConversion candidate.key := by
  simp only [ownConversions, List.mem_map, List.mem_filter] at listed
  obtain ⟨member, ⟨present, converts⟩, rfl⟩ := listed
  exact ⟨member, present, rfl, converts⟩

theorem hasConversion_picked {S : Symbols} (listed : candidate ∈ pickedConversions S owner decl) :
    S.HasConversion candidate.key := by
  simp only [pickedConversions, List.mem_append, List.mem_map, List.mem_filter] at listed
  rcases listed with ⟨selector, ⟨_, converts⟩, rfl⟩ | wildcard
  · cases found : (S.get owner).find? selector.name with
    | none => simp [found] at converts
    | some member =>
      refine ⟨member, List.mem_of_find?_eq_some found, by simpa using List.find?_some found, ?_⟩
      simpa [found] using converts
  · split at wildcard
    · exact hasConversion_own wildcard
    · simp at wildcard

theorem importedConversions_spec (visits : VisitKeeps env base bound visit)
    (ready : s.Consistent env bound)
    (run : importedConversions env visit frame outer imports s = .ok found s') :
    s.Advances env base bound s' ∧
      ∀ S, s'.Below S → ∀ candidate ∈ found, S.HasConversion candidate.key := by
  induction imports generalizing s s' found with
  | nil =>
    simp only [importedConversions, Check.pure_ok] at run
    obtain ⟨rfl, rfl⟩ := run
    exact ⟨.refl ready, fun S _ candidate impossible => by simp at impossible⟩
  | cons own earlier ih =>
    simp only [importedConversions, Check.bind_ok, Check.symbols_ok, Check.pure_ok] at run
    obtain ⟨path, between, resolved, _, _, ⟨rfl, rfl⟩, others, after, rest, rfl, rfl⟩ := run
    have first := importPath_spec visits ready resolved
    obtain ⟨second, real⟩ := ih first.consistent rest
    refine ⟨first.trans second, ?_⟩
    intro S below candidate listed
    rcases List.mem_append.mp listed with picked | other
    · apply hasConversion_of_shape (second.below below).shape
      split at picked
      · exact hasConversion_picked picked
      · simp at picked
    · exact real S below candidate other

theorem conversions_spec (visits : VisitKeeps env base bound visit) (ready : s.Consistent env bound)
    (run : conversions env visit scope s = .ok found s') :
    s.Advances env base bound s' ∧
      ∀ S, s'.Below S → ∀ candidate ∈ found, S.HasConversion candidate.key := by
  induction scope generalizing s s' found with
  | nil =>
    simp only [conversions, Check.pure_ok] at run
    obtain ⟨rfl, rfl⟩ := run
    exact ⟨.refl ready, fun S _ candidate impossible => by simp at impossible⟩
  | cons frame outer ih =>
    simp only [conversions, Check.bind_ok, Check.symbols_ok, Check.pure_ok] at run
    obtain ⟨_, _, ⟨rfl, rfl⟩, imported, between, picked, others, after, rest, rfl, rfl⟩ := run
    obtain ⟨first, realImported⟩ := importedConversions_spec visits ready picked
    obtain ⟨second, realOthers⟩ := ih first.consistent rest
    refine ⟨first.trans second, ?_⟩
    intro S below candidate listed
    rw [List.append_assoc, List.mem_append, List.mem_append] at listed
    rcases listed with own | brought | other
    · apply hasConversion_of_shape ((first.trans second).below below).shape
      split at own
      · exact hasConversion_own own
      · simp at own
    · exact realImported S (second.below below) candidate brought
    · exact realOthers S below candidate other

/-- The parameters of a function whose type is known are those of all later symbols. -/
theorem params_of_known (known : s.Typed key) (below : s.Below S)
    (found : S.member? key = some member) (stored : member.isParam = false) :
    ((s.symbols.member? key).map (·.params)).getD [] = member.params ∧
      ((s.symbols.member? key).map (·.type)).getD .error = member.type := by
  obtain ⟨now, present, shaped⟩ := Symbols.member?_of_shape below.shape.symm found
  have settled : s.Settled key := by
    refine ⟨known, ?_⟩
    intro member' present'
    rw [present] at present'
    cases present'
    rw [MemberSymbol.isParam_eq_of_shape shaped]
    exact stored
  have types := below.types key settled now member present found
  simp [present, types]

theorem applyFirst_spec (visits : VisitKeeps env base bound visit) (ready : s.Consistent env bound)
    (real : ∀ S, s.Below S → ∀ candidate ∈ candidates, S.HasConversion candidate.key)
    (run : applyFirst env visit scope operand candidates s = .ok typed s') :
    s.Advances env base bound s' ∧ typed.type = .str ∧ ∀ S, s'.Below S →
      WellTyped S false scope operand → WellTyped S false scope typed := by
  induction candidates generalizing s with
  | nil => simp [applyFirst, Check.bind_ok, Check.fail_ok] at run
  | cons candidate rest ih =>
    simp only [applyFirst, Check.bind_ok, Check.symbols_ok] at run
    obtain ⟨callee, between, resolved, _, _, ⟨rfl, rfl⟩, run⟩ := run
    obtain ⟨steps, known, well⟩ := resolveName_spec visits ready resolved
    split at run
    next fits =>
      simp only [Check.pure_ok] at run
      obtain ⟨rfl, rfl⟩ := run
      simp only [Bool.and_eq_true, decide_eq_true_eq] at fits
      obtain ⟨⟨applies, params⟩, text⟩ := fits
      refine ⟨steps, rfl, ?_⟩
      intro S below arg
      refine .convert (well S below) applies ?_ text ?_ arg
      · exact real S (steps.below below) candidate List.mem_cons_self
      · intro member found stored
        rw [← (params_of_known (known _ applies) below found stored).1]
        exact params
    next =>
      have later : ∀ S, between.Below S → ∀ other ∈ rest, S.HasConversion other.key :=
        fun S below other listed => real S (steps.below below) other (List.mem_cons_of_mem _ listed)
      obtain ⟨further, text, fits⟩ := ih steps.consistent later run
      exact ⟨steps.trans further, text, fits⟩

theorem toText_spec (visits : VisitKeeps env base bound visit) (ready : s.Consistent env bound)
    (run : toText env visit scope operand s = .ok typed s') :
    s.Advances env base bound s' ∧ typed.type = .str ∧ ∀ S, s'.Below S →
      WellTyped S false scope operand → WellTyped S false scope typed := by
  unfold toText at run
  split at run
  next text =>
    obtain ⟨rfl, rfl⟩ := Check.pure_ok.mp run
    exact ⟨.refl ready, text, fun S _ typed => typed⟩
  next =>
    simp only [Check.bind_ok] at run
    obtain ⟨candidates, between, found, run⟩ := run
    obtain ⟨first, real⟩ := conversions_spec visits ready found
    obtain ⟨second, text, fits⟩ := applyFirst_spec visits first.consistent real run
    exact ⟨first.trans second, text, fits⟩

theorem asValue_ok {typed result : TypedExpr}
    (run : (asValue typed : Check σ TypedExpr) s = .ok result s') :
    result = typed ∧ s' = s ∧ typed.type.isValue = true := by
  unfold asValue at run
  split at run
  next value =>
    obtain ⟨rfl, rfl⟩ := Check.pure_ok.mp run
    exact ⟨rfl, rfl, value⟩
  next => simp [Check.bind_ok, Check.fail_ok] at run

theorem checkBinary_spec (visits : VisitKeeps env base bound visit) (ready : s.Consistent env bound)
    (value : left.type.isValue = true)
    (run : checkBinary env visit scope span op left right s = .ok typed s') :
    s.Advances env base bound s' ∧ typed.calleeMember? = none ∧ ∀ S, s'.Below S →
      WellTyped S false scope left → WellTyped S false scope right →
      ∀ callee, WellTyped S callee scope typed := by
  have plain : ∀ t, (pure (.binary span op left right) : Check σ TypedExpr) s = .ok t s' →
      (∀ S, WellTyped S false scope left → WellTyped S false scope right →
        ∀ callee, WellTyped S callee scope (.binary span op left right)) →
      s.Advances env base bound s' ∧ t.calleeMember? = none ∧ ∀ S, s'.Below S →
        WellTyped S false scope left → WellTyped S false scope right →
        ∀ callee, WellTyped S callee scope t := by
    intro t run well
    obtain ⟨rfl, rfl⟩ := Check.pure_ok.mp run
    exact ⟨.refl ready, rfl, fun S _ => well S⟩
  have compares : (op = .equal ∨ op = .different) →
      (do if left.type ≠ right.type then
            Check.fail span (.incomparable (← Check.text left.type) (← Check.text right.type))
          return .binary span op left right : Check σ TypedExpr) s = .ok typed s' →
      s.Advances env base bound s' ∧ typed.calleeMember? = none ∧ ∀ S, s'.Below S →
        WellTyped S false scope left → WellTyped S false scope right →
        ∀ callee, WellTyped S callee scope typed := by
    intro which run
    simp only [Check.guardTexts_ok] at run
    exact plain typed run.2 fun S first second callee =>
      .compare first second which (Decidable.not_not.mp run.1) value
  have arithmetic : op ≠ .concat →
      (do if left.type ≠ .int || right.type ≠ .int then
            Check.fail span
              (.operandTypes op.name (← Check.text left.type) (← Check.text right.type))
          return .binary span op left right : Check σ TypedExpr) s = .ok typed s' →
      s.Advances env base bound s' ∧ typed.calleeMember? = none ∧ ∀ S, s'.Below S →
        WellTyped S false scope left → WellTyped S false scope right →
        ∀ callee, WellTyped S callee scope typed := by
    intro which run
    simp only [Check.guardTexts_ok] at run
    have words : left.type = .int ∧ right.type = .int := by simpa using run.1
    exact plain typed run.2 fun S first second callee =>
      .arithmetic first second words.1 words.2 which
  cases op with
  | concat =>
    simp only [checkBinary, Check.bind_ok, Check.pure_ok] at run
    obtain ⟨first, between, one, second, after, two, rfl, rfl⟩ := run
    obtain ⟨steps, firstText, wellFirst⟩ := toText_spec visits ready one
    obtain ⟨further, secondText, wellSecond⟩ := toText_spec visits steps.consistent two
    refine ⟨steps.trans further, rfl, ?_⟩
    intro S below leftTyped rightTyped callee
    exact .concat (wellFirst S (further.below below) leftTyped) (wellSecond S below rightTyped)
      firstText secondText
  | equal => exact compares (.inl rfl) run
  | different => exact compares (.inr rfl) run
  | or | and | less | lessEqual | greater | greaterEqual | add | sub | mul | div | mod =>
    exact arithmetic (by simp) run

theorem checkLocal_spec (visits : VisitKeeps env base bound visit) (ready : s.Consistent env bound)
    (run : checkLocal env visit scope span name ascription locals init s = .ok own s') :
    s.Advances env base bound s' ∧ own.type = init.type ∧ s.nextLocal ≤ own.id ∧
      own.id < s'.nextLocal := by
  have fresh : ∀ t : Checking σ, s.Advances env base bound t →
      (do if (locals.lookup name).isSome then Check.fail span (.duplicateLocal name)
          return ⟨← Check.freshLocal, init.type⟩ : Check σ Local) t = .ok own s' →
      s.Advances env base bound s' ∧ own.type = init.type ∧ s.nextLocal ≤ own.id ∧
        own.id < s'.nextLocal := by
    intro t steps run
    simp only [Check.guard_ok, Check.bind_ok, Check.freshLocal_ok, Check.pure_ok] at run
    obtain ⟨_, _, _, ⟨rfl, rfl⟩, rfl, rfl⟩ := run
    exact ⟨steps.trans (.of_fields steps.consistent rfl rfl rfl (Nat.le_succ _)), rfl,
      steps.grows.locals, Nat.lt_succ_self _⟩
  unfold checkLocal at run
  cases ascription with
  | none => exact fresh s (.refl ready) run
  | some ref =>
    simp only [Check.bind_ok] at run
    obtain ⟨declared, between, resolved, run⟩ := run
    have steps := (resolveType_spec visits ready resolved).1
    rw [Check.guardTexts_ok] at run
    exact fresh between steps run.2

/-- The locals in sight have numbers that are given away already. -/
def Numbered (scope : Scope) (s : Checking σ) : Prop := ∀ id ∈ scope.ids, id < s.nextLocal

theorem Numbered.mono (numbered : Numbered scope s) (steps : s.Advances env base bound s') :
    Numbered scope s' :=
  fun id listed => Nat.lt_of_lt_of_le (numbered id listed) steps.grows.locals

theorem Numbered.cons (numbered : Numbered ({ locals } :: scope) s) (own : Local)
    (new : own.id < s.nextLocal) : Numbered ({ locals := (name, own) :: locals } :: scope) s := by
  intro id listed
  simp only [Scope.ids, List.flatMap_cons, List.map_cons, List.cons_append, List.mem_cons] at listed
  rcases listed with rfl | listed
  · exact new
  · exact numbered id listed

/-- The check of an expression gives a tree that fits. -/
def ExprFits (env : CheckEnv σ) (base bound : Nat) (visit : Visit σ) (scope : Scope) (callee : Bool)
    (expr : Expr) : Prop :=
  ∀ {s s' : Checking σ} {typed : TypedExpr}, s.Consistent env bound → Numbered scope s →
    checkExpr env visit scope callee expr s = .ok typed s' →
    s.Advances env base bound s' ∧ s'.Knows typed ∧ ∀ S, s'.Below S → WellTyped S callee scope typed

def BodyFits (env : CheckEnv σ) (base bound : Nat) (visit : Visit σ) (scope : Scope)
    (locals : List (String × Local)) (last : Ty) (body : List Stmt) : Prop :=
  ∀ {s s' : Checking σ} {typed : List TypedStmt} {type : Ty}, s.Consistent env bound →
    Numbered ({ locals } :: scope) s →
    checkBody env visit scope locals last body s = .ok (typed, type) s' →
    s.Advances env base bound s' ∧ type = TypedStmt.lastType last typed ∧
      TypedStmt.Fresh scope locals typed ∧
      ∀ S, s'.Below S → ∀ part ∈ TypedStmt.parts scope locals typed, WellTyped S false part.1 part.2

def ArgumentsFit (env : CheckEnv σ) (base bound : Nat) (visit : Visit σ) (scope : Scope)
    (what : String) (params : List Param) (args : List Expr) : Prop :=
  ∀ {s s' : Checking σ} {typed : List TypedExpr}, s.Consistent env bound → Numbered scope s →
    checkArguments env visit scope what params args s = .ok typed s' →
    s.Advances env base bound s' ∧
      (params.length = args.length → typed.map (·.type) = params.map (·.type)) ∧
      ∀ S, s'.Below S → ∀ arg ∈ typed, WellTyped S false scope arg

def ValuesFit (env : CheckEnv σ) (base bound : Nat) (visit : Visit σ) (scope : Scope)
    (args : List Expr) : Prop :=
  ∀ {s s' : Checking σ} {typed : List TypedExpr}, s.Consistent env bound → Numbered scope s →
    checkValues env visit scope args s = .ok typed s' →
    s.Advances env base bound s' ∧ typed.length = args.length ∧
      ∀ S, s'.Below S → ∀ arg ∈ typed, WellTyped S false scope arg ∧ arg.type.isValue = true

/-- An operand: an expression that must be a value. -/
theorem ExprFits.value (fits : ExprFits env base bound visit scope false expr)
    (ready : s.Consistent env bound) (numbered : Numbered scope s)
    (checked : checkExpr env visit scope false expr s = .ok raw between)
    (value : asValue raw between = .ok typed s') :
    s.Advances env base bound s' ∧ Numbered scope s' ∧ typed.type.isValue = true ∧
      ∀ S, s'.Below S → WellTyped S false scope typed := by
  obtain ⟨rfl, rfl, isValue⟩ := asValue_ok value
  obtain ⟨steps, _, well⟩ := fits ready numbered checked
  exact ⟨steps, numbered.mono steps, isValue, well⟩

theorem knows_of_none (anonymous : typed.calleeMember? = none) : s.Knows typed := by
  intro key named
  rw [anonymous] at named
  cases named

/-- A call applies the built-in function, or a function that its callee names. -/
theorem applied_ok {found : Applied} (run : (applied span callee : Check σ Applied) s = .ok found s') :
    s' = s ∧ match found with
      | .builtinShow => ∃ place type name, callee = .name place type name .builtinShow
      | .function key member => callee.calleeMember? = some key ∧
          s.symbols.member? key = some member ∧ member.kind.isCallable = true := by
  have step : (applied span callee : Check σ Applied) = applied span callee := rfl
  conv at step => rhs; unfold applied
  split at step
  next =>
    rw [step] at run
    obtain ⟨rfl, rfl⟩ := Check.pure_ok.mp run
    exact ⟨rfl, _, _, _, rfl⟩
  next =>
    rw [step] at run
    cases named : callee.calleeMember? with
    | none => simp [named, Check.fail_ok] at run
    | some key =>
      simp only [named, Check.bind_ok, Check.symbols_ok] at run
      obtain ⟨_, _, ⟨rfl, rfl⟩, run⟩ := run
      cases listed : s.symbols.member? key with
      | none => simp [listed, Check.fail_ok] at run
      | some member =>
        simp only [listed] at run
        split at run
        next callable =>
          obtain ⟨rfl, rfl⟩ := Check.pure_ok.mp run
          exact ⟨rfl, rfl, listed, callable⟩
        next => exact (Check.fail_ok.mp run).elim

theorem checkCount_ok (run : (checkCount span what expected found : Check σ Unit) s = .ok () s') :
    s' = s ∧ expected = found := by
  unfold checkCount at run
  split at run
  next => exact (Check.fail_ok.mp run).elim
  next same =>
    obtain ⟨-, rfl⟩ := Check.pure_ok.mp run
    exact ⟨rfl, Decidable.not_not.mp same⟩

theorem checkArgument_ok {arg : TypedExpr}
    (run : (checkArgument what param arg : Check σ Unit) s = .ok u s') :
    s' = s ∧ arg.type = param.type := by
  unfold checkArgument at run
  split at run
  next => simp [Check.bind_ok, Check.fail_ok] at run
  next same =>
    obtain ⟨-, rfl⟩ := Check.pure_ok.mp run
    exact ⟨rfl, Decidable.not_not.mp same⟩

theorem targetClass_ok {target : TypedExpr}
    (run : (targetClass span target : Check σ ContainerId) s = .ok cls s') :
    s' = s ∧ target.type = .space cls ∧ (s.symbols.get cls).isClass = true := by
  unfold targetClass at run
  cases space : target.type with
  | space owner =>
    simp only [space, Check.bind_ok, Check.symbols_ok] at run
    obtain ⟨_, _, ⟨rfl, rfl⟩, run⟩ := run
    split at run
    next isClass =>
      obtain ⟨rfl, rfl⟩ := Check.pure_ok.mp run
      exact ⟨rfl, rfl, isClass⟩
    next => simp [Check.bind_ok, Check.fail_ok] at run
  | error | int | str | unit | object => simp [space, Check.bind_ok, Check.fail_ok] at run

theorem exprFits_this : ExprFits env base bound visit scope callee (.this span) := by
  intro s s' typed ready _ run
  rw [checkExpr] at run
  simp only [Check.bind_ok, Check.symbols_ok] at run
  obtain ⟨_, _, ⟨rfl, rfl⟩, run⟩ := run
  cases inside : scope.innermostClass? s.symbols with
  | none => simp [inside, Check.fail_ok] at run
  | some cls =>
    simp only [inside, Check.pure_ok] at run
    obtain ⟨rfl, rfl⟩ := run
    refine ⟨.refl ready, knows_of_none rfl, fun S below => .this ?_⟩
    rw [Symbols.innermostClass?_of_shape below.shape]
    exact inside

theorem exprFits_call (function : ExprFits env base bound visit scope true head)
    (values : ValuesFit env base bound visit scope args)
    (arguments : ∀ member : MemberSymbol,
      ArgumentsFit env base bound visit scope ("def " ++ member.name) member.params args) :
    ExprFits env base bound visit scope callee (.call span head args) := by
  intro s s' typed ready numbered run
  rw [checkExpr] at run
  simp only [Check.bind_ok] at run
  obtain ⟨named, between, checked, what, _, applies, run⟩ := run
  obtain ⟨first, known, well⟩ := function ready numbered checked
  obtain ⟨rfl, meaning⟩ := applied_ok applies
  cases what with
  | builtinShow =>
    obtain ⟨place, type, name, rfl⟩ := meaning
    simp only [Check.guard_ok, Check.bind_ok, Check.pure_ok] at run
    obtain ⟨single, operands, after, shown, rfl, rfl⟩ := run
    obtain ⟨second, count, fit⟩ := values first.consistent (numbered.mono first) shown
    obtain ⟨operand, rfl⟩ := List.length_eq_one_iff.mp (count.trans (Decidable.not_not.mp single))
    refine ⟨first.trans second, knows_of_none rfl, ?_⟩
    intro S below
    obtain ⟨arg, value⟩ := fit S below operand List.mem_cons_self
    exact .show arg value
  | function key member =>
    obtain ⟨names, listed, callable⟩ := meaning
    simp only [Check.bind_ok, Check.symbols_ok, Check.pure_ok] at run
    obtain ⟨_, _, counted, operands, after, fitting, _, _, ⟨rfl, rfl⟩, rfl, rfl⟩ := run
    obtain ⟨rfl, count⟩ := checkCount_ok counted
    obtain ⟨second, types, fit⟩ := arguments _ first.consistent (numbered.mono first) fitting
    refine ⟨first.trans second, knows_of_none rfl, ?_⟩
    intro S below
    obtain ⟨later, found, shaped⟩ := Symbols.member?_of_shape (second.below below).shape listed
    refine .call (well S (second.below below)) names found ?_ (fit S below) ?_
    · rw [MemberSymbol.kind_eq_of_shape shaped]
      exact callable
    · intro stored
      have early := params_of_known (known key names) (second.below below) found stored
      have late := params_of_known (second.typed (known key names)) below found stored
      rw [listed] at early
      exact ⟨late.2.symm, (types count).trans (congrArg (List.map (·.type)) early.1)⟩

theorem exprFits_new (named : ExprFits env base bound visit scope false target)
    (arguments : ∀ cls (S : Symbols), ArgumentsFit env base bound visit scope
      ("class " ++ (S.get cls).name) (S.get cls).params args) :
    ExprFits env base bound visit scope callee (.new span target args) := by
  intro s s' typed ready numbered run
  rw [checkExpr] at run
  simp only [Check.bind_ok, Check.symbols_ok, Check.pure_ok] at run
  obtain ⟨path, between, checked, cls, _, chosen, _, _, ⟨rfl, rfl⟩, _, _, counted, operands, after,
    fitting, rfl, rfl⟩ := run
  obtain ⟨first, -, well⟩ := named ready numbered checked
  obtain ⟨rfl, space, isClass⟩ := targetClass_ok chosen
  obtain ⟨rfl, -⟩ := checkCount_ok counted
  obtain ⟨second, -, fit⟩ := arguments _ _ first.consistent (numbered.mono first) fitting
  refine ⟨first.trans second, knows_of_none rfl, ?_⟩
  intro S below
  refine .new (well S (second.below below)) space ?_ (fit S below)
  rw [Symbols.isClass_of_shape (second.below below).shape]
  exact isClass

theorem exprFits_binary (first : ExprFits env base bound visit scope false left)
    (second : ExprFits env base bound visit scope false right)
    (visits : VisitKeeps env base bound visit) :
    ExprFits env base bound visit scope callee (.binary span op left right) := by
  intro s s' typed ready numbered run
  rw [checkExpr] at run
  simp only [Check.bind_ok] at run
  obtain ⟨_, _, one, _, _, oneValue, _, _, two, _, _, twoValue, run⟩ := run
  obtain ⟨steps, numbered, value, wellLeft⟩ := first.value ready numbered one oneValue
  obtain ⟨more, _, _, wellRight⟩ := second.value steps.consistent numbered two twoValue
  obtain ⟨last, anonymous, well⟩ := checkBinary_spec visits more.consistent value run
  refine ⟨(steps.trans more).trans last, knows_of_none anonymous, ?_⟩
  intro S below
  have later := last.below below
  exact well S below (wellLeft S (more.below later)) (wellRight S later) callee

theorem exprFits_unary (arg : ExprFits env base bound visit scope false operand) :
    ExprFits env base bound visit scope callee (.unary span op operand) := by
  intro s s' typed ready numbered run
  rw [checkExpr] at run
  simp only [Check.bind_ok, Check.guardText_ok, Check.pure_ok] at run
  obtain ⟨_, _, one, _, _, value, word, rfl, rfl⟩ := run
  obtain ⟨steps, -, -, well⟩ := arg.value ready numbered one value
  exact ⟨steps, knows_of_none rfl, fun S below => .unary (well S below) (Decidable.not_not.mp word)⟩

theorem exprFits_cond (condition : ExprFits env base bound visit scope false test)
    (first : ExprFits env base bound visit scope false left)
    (second : ∀ right, other = some right → ExprFits env base bound visit scope false right) :
    ExprFits env base bound visit scope callee (.cond span test left other) := by
  intro s s' typed ready numbered run
  rw [checkExpr] at run
  simp only [Check.bind_ok, Check.guardText_ok] at run
  obtain ⟨_, _, tested, _, _, testValue, word, _, _, one, _, _, oneValue, run⟩ := run
  obtain ⟨steps, numbered, -, wellTest⟩ := condition.value ready numbered tested testValue
  obtain ⟨more, numbered, -, wellLeft⟩ := first.value steps.consistent numbered one oneValue
  cases other with
  | none =>
    obtain ⟨rfl, rfl⟩ := Check.pure_ok.mp run
    refine ⟨steps.trans more, knows_of_none rfl, ?_⟩
    intro S below
    exact .when (wellTest S (more.below below)) (Decidable.not_not.mp word) (wellLeft S below)
  | some right =>
    simp only [Check.bind_ok, Check.guardTexts_ok, Check.pure_ok] at run
    obtain ⟨_, _, two, _, _, twoValue, same, rfl, rfl⟩ := run
    have branch : ExprFits env base bound visit scope false right := second right rfl
    obtain ⟨last, -, -, wellRight⟩ := branch.value more.consistent numbered two twoValue
    refine ⟨(steps.trans more).trans last, knows_of_none rfl, ?_⟩
    intro S below
    have later := last.below below
    exact .cond (wellTest S (more.below later)) (Decidable.not_not.mp word) (wellLeft S later)
      (wellRight S below) (Decidable.not_not.mp same)

theorem exprFits_block (statements : BodyFits env base bound visit scope [] .unit body) :
    ExprFits env base bound visit scope callee (.block span body) := by
  intro s s' typed ready numbered run
  rw [checkExpr] at run
  simp only [Check.bind_ok, Check.pure_ok] at run
  obtain ⟨⟨typedBody, type⟩, _, checked, rfl, rfl⟩ := run
  obtain ⟨steps, rfl, fresh, well⟩ := statements ready numbered checked
  exact ⟨steps, knows_of_none rfl, fun S below => .block (well S below) fresh⟩

theorem argumentsFit_cons (arg : ExprFits env base bound visit scope false first)
    (others : ArgumentsFit env base bound visit scope what params.tail rest) :
    ArgumentsFit env base bound visit scope what params (first :: rest) := by
  intro s s' typed ready numbered run
  rw [checkArguments] at run
  cases params with
  | nil =>
    simp only [List.head?_nil, Check.bind_ok, Check.pure_ok] at run
    obtain ⟨_, _, one, own, _, value, more, _, checked, rfl, rfl⟩ := run
    obtain ⟨steps, numbered, -, well⟩ := arg.value ready numbered one value
    obtain ⟨last, -, fit⟩ := others steps.consistent numbered checked
    refine ⟨steps.trans last, fun count => by simp at count, ?_⟩
    intro S below
    exact List.forall_mem_cons.mpr ⟨well S (last.below below), fit S below⟩
  | cons param params =>
    simp only [List.head?_cons, Check.bind_ok, Check.pure_ok] at run
    obtain ⟨_, _, one, own, _, value, _, _, matched, more, _, checked, rfl, rfl⟩ := run
    obtain ⟨steps, numbered, -, well⟩ := arg.value ready numbered one value
    obtain ⟨rfl, type⟩ := checkArgument_ok matched
    obtain ⟨last, types, fit⟩ := others steps.consistent numbered checked
    refine ⟨steps.trans last, ?_, ?_⟩
    · intro count
      simp only [List.map_cons, type]
      congr 1
      exact types (by simpa using count)
    · intro S below
      exact List.forall_mem_cons.mpr ⟨well S (last.below below), fit S below⟩

theorem valuesFit_cons (arg : ExprFits env base bound visit scope false first)
    (others : ValuesFit env base bound visit scope rest) :
    ValuesFit env base bound visit scope (first :: rest) := by
  intro s s' typed ready numbered run
  rw [checkValues] at run
  simp only [Check.bind_ok, Check.pure_ok] at run
  obtain ⟨_, _, one, own, _, value, more, _, checked, rfl, rfl⟩ := run
  obtain ⟨steps, numbered, isValue, well⟩ := arg.value ready numbered one value
  obtain ⟨last, count, fit⟩ := others steps.consistent numbered checked
  refine ⟨steps.trans last, by simp [count], ?_⟩
  intro S below
  exact List.forall_mem_cons.mpr ⟨⟨well S (last.below below), isValue⟩, fit S below⟩

theorem bodyFits_val
    (value : ExprFits env base bound visit ({ locals } :: scope) false init)
    (others : ∀ own, BodyFits env base bound visit scope ((name, own) :: locals) .unit rest)
    (visits : VisitKeeps env base bound visit) :
    BodyFits env base bound visit scope locals last (.val span name ascription init :: rest) := by
  intro s s' typed type ready numbered run
  rw [checkBody] at run
  simp only [Check.bind_ok, Check.pure_ok, Prod.mk.injEq] at run
  obtain ⟨_, _, one, typedInit, _, isValue, ⟨id, _⟩, _, declared, ⟨typedRest, _⟩, _, checked,
    ⟨rfl, rfl⟩, rfl⟩ := run
  obtain ⟨steps, numbered, -, well⟩ := value.value ready numbered one isValue
  obtain ⟨more, rfl, new, given⟩ := checkLocal_spec visits steps.consistent declared
  obtain ⟨rest, rfl, fresh, fit⟩ :=
    others _ more.consistent ((numbered.mono more).cons _ given) checked
  refine ⟨(steps.trans more).trans rest, rfl, ⟨?_, fresh⟩, ?_⟩
  · intro visible
    exact Nat.lt_irrefl _ (Nat.lt_of_lt_of_le (numbered id visible) new)
  · intro S below
    exact List.forall_mem_cons.mpr ⟨well S (more.below (rest.below below)), fit S below⟩

theorem bodyFits_expr
    (value : ExprFits env base bound visit ({ locals } :: scope) false expr)
    (others : ∀ typed : TypedExpr, BodyFits env base bound visit scope locals typed.type rest) :
    BodyFits env base bound visit scope locals last (.expr expr :: rest) := by
  intro s s' typed type ready numbered run
  rw [checkBody] at run
  simp only [Check.bind_ok, Check.pure_ok, Prod.mk.injEq] at run
  obtain ⟨_, _, one, own, _, isValue, ⟨typedRest, _⟩, _, checked, ⟨rfl, rfl⟩, rfl⟩ := run
  obtain ⟨steps, numbered, -, well⟩ := value.value ready numbered one isValue
  obtain ⟨rest, rfl, fresh, fit⟩ := others _ steps.consistent numbered checked
  refine ⟨steps.trans rest, rfl, fresh, ?_⟩
  intro S below
  exact List.forall_mem_cons.mpr ⟨well S (rest.below below), fit S below⟩

/-- The parts of an expression are checked in the scope of their own place, one after the other. -/
theorem check_fits (visits : VisitKeeps env base bound visit) :
    (∀ scope callee expr, ExprFits env base bound visit scope callee expr) ∧
    (∀ scope locals last body, BodyFits env base bound visit scope locals last body) ∧
    (∀ scope what params args, ArgumentsFit env base bound visit scope what params args) ∧
    ∀ scope args, ValuesFit env base bound visit scope args := by
  apply checkExpr.mutual_induct
  case case1 =>
    intro scope callee span value s s' typed ready _ run
    rw [checkExpr] at run
    obtain ⟨rfl, rfl⟩ := Check.pure_ok.mp run
    exact ⟨.refl ready, knows_of_none rfl, fun S _ => .int⟩
  case case2 =>
    intro scope callee span value s s' typed ready _ run
    rw [checkExpr] at run
    obtain ⟨rfl, rfl⟩ := Check.pure_ok.mp run
    exact ⟨.refl ready, knows_of_none rfl, fun S _ => .str⟩
  case case3 =>
    intro scope callee span s s' typed ready _ run
    rw [checkExpr] at run
    obtain ⟨rfl, rfl⟩ := Check.pure_ok.mp run
    exact ⟨.refl ready, knows_of_none rfl, fun S _ => .unit⟩
  case case4 => exact fun scope callee span => exprFits_this
  case case5 =>
    intro scope callee span name s s' typed ready _ run
    rw [checkExpr_name] at run
    exact resolveName_spec visits ready run
  case case6 =>
    intro scope callee span object member target s s' typed ready numbered run
    rw [checkExpr] at run
    simp only [Check.bind_ok] at run
    obtain ⟨own, between, checked, run⟩ := run
    obtain ⟨first, -, well⟩ := target ready numbered checked
    obtain ⟨second, known, selected⟩ := select_spec visits first.consistent run
    exact ⟨first.trans second, known,
      fun S below => selected S below scope (well S (second.below below))⟩
  case case7 =>
    exact fun _ _ _ _ _ function values arguments => exprFits_call function values arguments
  case case8 => exact fun _ _ _ _ _ named arguments => exprFits_new named arguments
  case case9 => exact fun _ _ _ _ _ _ first second => exprFits_binary first second visits
  case case10 => exact fun _ _ _ _ _ arg => exprFits_unary arg
  case case11 =>
    intro scope callee span test left other condition first second
    refine exprFits_cond condition first ?_
    rintro right rfl
    exact second
  case case12 => exact fun _ _ _ _ statements => exprFits_block statements
  case case13 =>
    intro scope what params s s' typed ready _ run
    rw [checkArguments] at run
    obtain ⟨rfl, rfl⟩ := Check.pure_ok.mp run
    exact ⟨.refl ready, fun none => by simpa using none, fun S _ => by simp⟩
  case case14 => exact fun _ _ _ _ _ arg others => argumentsFit_cons arg others
  case case15 =>
    intro scope s s' typed ready _ run
    rw [checkValues] at run
    obtain ⟨rfl, rfl⟩ := Check.pure_ok.mp run
    exact ⟨.refl ready, rfl, fun S _ => by simp⟩
  case case16 => exact fun _ _ _ arg others => valuesFit_cons arg others
  case case17 =>
    intro scope locals last s s' typed type ready _ run
    rw [checkBody] at run
    simp only [Check.pure_ok, Prod.mk.injEq] at run
    obtain ⟨⟨rfl, rfl⟩, rfl⟩ := run
    exact ⟨.refl ready, rfl, trivial, fun S _ => by simp [TypedStmt.parts]⟩
  case case18 => exact fun _ _ _ _ _ _ _ _ value others => bodyFits_val value others visits
  case case19 => exact fun _ _ _ _ _ value others => bodyFits_expr value others

/-- A value is checked into a well-typed tree of a value type. -/
theorem checkValue_spec (visits : VisitKeeps env base bound visit) (ready : s.Consistent env bound)
    (numbered : Numbered scope s) (run : checkValue env visit scope expr s = .ok typed s') :
    s.Advances env base bound s' ∧ typed.type.isValue = true ∧
      ∀ S, s'.Below S → WellTyped S false scope typed := by
  simp only [checkValue, Check.bind_ok] at run
  obtain ⟨raw, between, checked, value⟩ := run
  have fits : ExprFits env base bound visit scope false expr := (check_fits visits).1 _ _ _
  obtain ⟨steps, -, isValue, well⟩ := fits.value ready numbered checked value
  exact ⟨steps, isValue, well⟩

theorem checkValue_ofMember (run : checkValue env visit scope expr s = .ok typed s') :
    typed.type.OfMember := by
  simp only [checkValue, Check.bind_ok] at run
  obtain ⟨raw, between, checked, value⟩ := run
  obtain ⟨rfl, rfl, isValue⟩ := asValue_ok value
  exact Ty.ofMember_of_isValue isValue

end ScriptShell.Typing
