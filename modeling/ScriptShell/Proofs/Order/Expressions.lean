import ScriptShell.Proofs.Order.Paths
import ScriptShell.Proofs.Typing.Expressions

/-! Expressions are followed. The two checks come to the same types and the same functions, so the
conditions under which an expression is refused are the same; only the numbers of locals differ. -/
namespace ScriptShell.Typing

open Checking

variable {σ : Type} {w : Window σ} {n : Nat} {s s' t : Checking σ} {key : MemberKey}

theorem importedConversions_follows {imports : List ScopedImport} (moving : w.Moving n)
    (laid : Scope.Laid w.home ({ frame with imports } :: outer)) (ready : s.Consistent w.env n)
    (run : importedConversions w.env (checkMember w.env n) frame outer imports s = .ok found s') :
    w.Moves n s s' ∧ ∀ t (twin : Frame) (rest : Scope),
      Scope.Laid w.home ({ twin with imports } :: rest) →
      w.Follows s s' t (importedConversions w.other w.reply twin rest imports) fun got _ => got = found := by
  induction imports generalizing s s' found with
  | nil =>
    simp only [importedConversions, Check.pure_ok] at run
    obtain ⟨rfl, rfl⟩ := run
    exact ⟨.refl ready, fun t twin rest _ => .pure rfl⟩
  | cons own earlier ih =>
    simp only [importedConversions, Check.bind_ok, Check.symbols_ok, Check.pure_ok] at run
    obtain ⟨path, between, resolved, _, _, ⟨rfl, rfl⟩, others, after, remaining, rfl, rfl⟩ := run
    have stands := laid.1 own earlier (List.suffix_refl _)
    have front : Scope.Laid w.home ({ frame with imports := earlier } :: outer) :=
      laid.earlier (List.suffix_cons own earlier)
    obtain ⟨first, one⟩ := importPath_follows moving stands front ready resolved
    obtain ⟨second, more⟩ := ih front first.consistent remaining
    refine ⟨first.trans second, ?_⟩
    intro t twin rest laidToo
    have same := (laidToo.1 own earlier (List.suffix_refl _)).symm.trans stands
    simp only [Option.some.injEq, Prod.mk.injEq, true_and] at same
    unfold importedConversions
    rw [same]
    refine .bind (one t) first.leads second.leads ?_
    intro got v _ type
    refine .given fun _ _ leads _ trails => .symbols ?_
    have sees := trails.sees (second.leads.trans leads)
    refine .bind (more v twin rest (laidToo.earlier (List.suffix_cons own earlier))) second.leads (.refl _) ?_
    rintro _ u - rfl
    refine .pure (congrArg (· ++ _) ?_)
    rw [type]
    cases path.type.container? with
    | none => rfl
    | some owner =>
      have shapes (name : String) : ((v.symbols.get owner).find? name).any isConversion =
          ((between.symbols.get owner).find? name).any isConversion := by
        have same := congrArg (Option.any isConversion) (sees.member? ⟨owner, name⟩)
        simp only [Option.any_map] at same
        exact same
      simp only [pickedConversions, shapes, sees.conversions]

theorem conversions_follows (moving : w.Moving n) (laid : scope.Laid w.home)
    (ready : s.Consistent w.env n) (run : conversions w.env (checkMember w.env n) scope s = .ok found s') :
    w.Moves n s s' ∧ ∀ t other, scope.Alike other → other.Laid w.home →
      w.Follows s s' t (conversions w.other w.reply other) fun got _ => got = found := by
  induction scope generalizing s s' found with
  | nil =>
    simp only [conversions, Check.pure_ok] at run
    obtain ⟨rfl, rfl⟩ := run
    refine ⟨.refl ready, ?_⟩
    rintro t _ ⟨⟩ -
    exact .pure rfl
  | cons frame outer ih =>
    simp only [conversions, Check.bind_ok, Check.symbols_ok, Check.pure_ok] at run
    obtain ⟨_, _, ⟨rfl, rfl⟩, imported, between, picked, others, after, remaining, rfl, rfl⟩ := run
    obtain ⟨first, one⟩ := importedConversions_follows moving laid ready picked
    obtain ⟨second, more⟩ := ih laid.2 first.consistent remaining
    refine ⟨first.trans second, ?_⟩
    intro t other alike laidToo
    cases alike with
    | @cons _ twin _ rest head tail =>
      unfold conversions
      refine .given fun _ _ leads _ trails => .symbols ?_
      have sees := trails.sees ((first.leads.trans second.leads).trans leads)
      rw [head.imports, head.container]
      refine .bind (one t twin rest (head.imports ▸ laidToo)) first.leads second.leads ?_
      rintro _ v - rfl
      refine .bind (more v rest tail laidToo.2) second.leads (.refl _) ?_
      rintro _ u - rfl
      simp only [sees.conversions]
      exact .pure rfl

/-- The parameters of a function that both checks know. -/
theorem params_follow (trails : w.Trails t) (ready : s.Consistent w.env n) (leads : s.Leads w.last)
    (known : s.Typed key) (knownToo : t.Typed key) :
    ((t.symbols.member? key).map (·.params)).getD [] = ((s.symbols.member? key).map (·.params)).getD [] ∧
      ((t.symbols.member? key).map (·.type)).getD .error =
        ((s.symbols.member? key).map (·.type)).getD .error := by
  have sees := trails.sees leads
  cases found : s.symbols.member? key with
  | none => simp [sees.missing found]
  | some own =>
    obtain ⟨twin, present, -⟩ := sees.found found
    have agree := trails.agrees ready leads known knownToo found present
    simp [present, agree]

theorem applyFirst_follows {operand : TypedExpr} (moving : w.Moving n) (laid : scope.Laid w.home)
    (ready : s.Consistent w.env n)
    (run : applyFirst w.env (checkMember w.env n) scope operand candidates s = .ok typed s') :
    w.Moves n s s' ∧ ∀ t other twin, scope.Alike other → other.Laid w.home → operand.Alike twin →
      w.Follows s s' t (applyFirst w.other w.reply other twin candidates) fun got _ => typed.Alike got := by
  induction candidates generalizing s with
  | nil => simp [applyFirst, Check.bind_ok, Check.fail_ok] at run
  | cons candidate rest ih =>
    simp only [applyFirst, Check.bind_ok, Check.symbols_ok] at run
    obtain ⟨callee, between, resolved, _, _, ⟨rfl, rfl⟩, run⟩ := run
    obtain ⟨moves, known, one⟩ := resolveName_follows moving laid ready resolved
    -- Whether the candidate fits does not depend on the check that tries it.
    have fits : ∀ v got twin, callee.Alike got → v.Knows got → operand.Alike twin →
        between.Leads w.last → w.Trails v →
        (decide (got.calleeMember? = some candidate.key) &&
          decide ((((v.symbols.member? candidate.key).map (·.params)).getD []).map (·.type) =
            [twin.type]) && decide (got.type = .str)) =
        (decide (callee.calleeMember? = some candidate.key) &&
          decide ((((between.symbols.member? candidate.key).map (·.params)).getD []).map (·.type) =
            [operand.type]) && decide (callee.type = .str)) := by
      intro v got twin same knownToo like leads trails
      rw [same.calleeMember?, same.type, like.type]
      by_cases named : callee.calleeMember? = some candidate.key
      · have params := (params_follow trails moves.consistent leads (known _ named)
          (knownToo _ (same.calleeMember?.trans named))).1
        rw [params]
      · simp [named]
    split at run
    next applies =>
      simp only [Check.pure_ok] at run
      obtain ⟨rfl, rfl⟩ := run
      refine ⟨moves, ?_⟩
      intro t other twin alike laidToo like
      unfold applyFirst
      rw [like.span]
      refine .bind (one t other alike laidToo) moves.leads (.refl _) ?_
      rintro got v - ⟨same, knownToo⟩
      refine .given fun _ _ leads _ trails => .symbols ?_
      dsimp only
      rw [fits v got twin same knownToo like leads trails, if_pos applies]
      exact .pure ⟨rfl, rfl, rfl, by simp⟩
    next passes =>
      obtain ⟨further, others⟩ := ih moves.consistent run
      refine ⟨moves.trans further, ?_⟩
      intro t other twin alike laidToo like
      unfold applyFirst
      rw [like.span]
      refine .bind (one t other alike laidToo) moves.leads further.leads ?_
      rintro got v - ⟨same, knownToo⟩
      refine .given fun _ _ leads _ trails => .symbols ?_
      dsimp only
      rw [fits v got twin same knownToo like (further.leads.trans leads) trails, if_neg passes]
      exact others v other twin alike laidToo like

theorem toText_follows {operand : TypedExpr} (moving : w.Moving n) (laid : scope.Laid w.home)
    (ready : s.Consistent w.env n)
    (run : toText w.env (checkMember w.env n) scope operand s = .ok typed s') :
    w.Moves n s s' ∧ ∀ t other twin, scope.Alike other → other.Laid w.home → operand.Alike twin →
      w.Follows s s' t (toText w.other w.reply other twin) fun got _ => typed.Alike got := by
  unfold toText at run
  split at run
  next text =>
    obtain ⟨rfl, rfl⟩ := Check.pure_ok.mp run
    refine ⟨.refl ready, ?_⟩
    intro t other twin alike laidToo like
    unfold toText
    rw [like.type, if_pos text]
    exact .pure like
  next notText =>
    simp only [Check.bind_ok] at run
    obtain ⟨candidates, between, found, run⟩ := run
    obtain ⟨first, one⟩ := conversions_follows moving laid ready found
    obtain ⟨second, more⟩ := applyFirst_follows moving laid first.consistent run
    refine ⟨first.trans second, ?_⟩
    intro t other twin alike laidToo like
    unfold toText
    rw [like.type, if_neg notText]
    refine .bind (one t other alike laidToo) first.leads second.leads ?_
    rintro _ v - rfl
    exact more v other twin alike laidToo like

theorem asValue_follows {typed got : TypedExpr} {f : TypedExpr → Check σ α} {post : α → Checking σ → Prop}
    (value : typed.type.isValue = true) (same : typed.Alike got) (further : w.Follows s s' t (f got) post) :
    w.Follows s s' t (asValue got >>= f) post := by
  unfold asValue
  rw [same.type, if_pos value]
  exact further

theorem checkBinary_follows (moving : w.Moving n) (laid : scope.Laid w.home) (ready : s.Consistent w.env n)
    (run : checkBinary w.env (checkMember w.env n) scope span op left right s = .ok typed s') :
    w.Moves n s s' ∧ typed.calleeMember? = none ∧ ∀ t other left' right', scope.Alike other →
      other.Laid w.home → left.Alike left' → right.Alike right' →
      w.Follows s s' t (checkBinary w.other w.reply other span op left' right')
        fun got _ => typed.Alike got := by
  have alike : ∀ left' right', TypedExpr.Alike (.binary span op left right) (.binary span op left' right') :=
    fun left' right' => ⟨rfl, rfl, rfl, by simp⟩
  cases op with
  | concat =>
    simp only [checkBinary, Check.bind_ok, Check.pure_ok] at run
    obtain ⟨first, between, one, second, after, two, rfl, rfl⟩ := run
    obtain ⟨moves, follows⟩ := toText_follows moving laid ready one
    obtain ⟨further, more⟩ := toText_follows moving laid moves.consistent two
    refine ⟨moves.trans further, rfl, ?_⟩
    intro t other left' right' same laidToo likeLeft likeRight
    unfold checkBinary
    refine .bind (follows t other left' same laidToo likeLeft) moves.leads further.leads ?_
    rintro gotLeft v - -
    refine .bind (more v other right' same laidToo likeRight) further.leads (.refl _) ?_
    rintro gotRight u - -
    exact .pure ⟨rfl, rfl, rfl, by simp⟩
  | equal | different =>
    simp only [checkBinary, Check.guardTexts_ok, Check.pure_ok] at run
    obtain ⟨same, rfl, rfl⟩ := run
    refine ⟨.refl ready, rfl, ?_⟩
    intro t other left' right' _ _ likeLeft likeRight
    unfold checkBinary
    simp only [likeLeft.type, likeRight.type, same, if_false]
    exact .pure (alike left' right')
  | or | and | less | lessEqual | greater | greaterEqual | add | sub | mul | div | mod =>
    simp only [checkBinary, Check.guardTexts_ok, Check.pure_ok] at run
    obtain ⟨words, rfl, rfl⟩ := run
    refine ⟨.refl ready, rfl, ?_⟩
    intro t other left' right' _ _ likeLeft likeRight
    unfold checkBinary
    simp only [likeLeft.type, likeRight.type, words]
    exact .pure (alike left' right')

/-- The two checks apply the same function. -/
def Applied.Alike : Applied → Applied → Prop
  | .builtinShow, .builtinShow => True
  | .function key own, .function other twin =>
    other = key ∧ twin.shape = own.shape ∧ twin.params = own.params
  | _, _ => False

theorem applied_named {callee : TypedExpr}
    (named : ¬ ∃ span type name, callee = .name span type name .builtinShow) :
    (applied span callee : Check σ Applied) = (do
      match callee.calleeMember? with
      | none => Check.fail span .notFunction
      | some key =>
        match (← Check.symbols).member? key with
        | none => Check.fail span .notFunction
        | some member =>
          if member.kind.isCallable then return .function key member
          else Check.fail span .notFunction) := by
  unfold applied
  split
  next place type name => exact absurd ⟨place, type, name, rfl⟩ named
  next => rfl

theorem applied_follows {callee : TypedExpr} {found : Applied} (ready : s.Consistent w.env n)
    (known : s.Knows callee) (run : (applied span callee : Check σ Applied) s = .ok found s') :
    ∀ t got, callee.Alike got → t.Knows got →
      w.Follows s s t (applied span got) fun what _ => found.Alike what := by
  intro t got same knownToo
  obtain ⟨rfl, meaning⟩ := applied_ok run
  cases found with
  | builtinShow =>
    obtain ⟨place, type, name, rfl⟩ := same.shows.mpr meaning
    exact .pure trivial
  | function key member =>
    obtain ⟨names, listed, callable⟩ := meaning
    have named : ¬ ∃ span type name, callee = .name span type name .builtinShow := by
      rintro ⟨place, type, name, rfl⟩
      simp [TypedExpr.calleeMember?] at names
    rw [applied_named (fun shown => named (same.shows.mp shown)), same.calleeMember?, names]
    refine .given fun _ _ leads _ trails => .symbols ?_
    obtain ⟨twin, present, shaped⟩ := (trails.sees leads).found listed
    have agree := trails.agrees ready leads (known key names)
      (knownToo key (same.calleeMember?.trans names)) listed present
    simp only [present, MemberSymbol.kind_eq_of_shape shaped, callable, if_true]
    exact .pure ⟨rfl, shaped, agree.2⟩

theorem targetClass_follows {target got : TypedExpr} (same : target.Alike got)
    (run : (targetClass span target : Check σ ContainerId) s = .ok cls s') :
    w.Follows s s t (targetClass span got) fun own _ => own = cls := by
  obtain ⟨rfl, space, isClass⟩ := targetClass_ok run
  unfold targetClass
  rw [same.type, space]
  refine .given fun _ _ leads _ trails => .symbols ?_
  rw [(trails.sees leads).isClass, if_pos isClass]
  exact .pure rfl

theorem checkCount_follows {expected found : Nat}
    (run : (checkCount span what expected found : Check σ Unit) s = .ok u s') (what' : String) :
    w.Follows s s t (checkCount span what' expected found) fun _ _ => True := by
  obtain ⟨rfl, count⟩ := checkCount_ok run
  unfold checkCount
  rw [if_neg (by simpa using count)]
  exact .pure trivial

/-- Values of a block are alike to both checks but for their numbers. -/
theorem checkLocal_follows {init : TypedExpr} (moving : w.Moving n) (laid : scope.Laid w.home)
    (ready : s.Consistent w.env n)
    (run : checkLocal w.env (checkMember w.env n) scope span name ascription locals init s = .ok own s') :
    w.Moves n s s' ∧ own.type = init.type ∧ ∀ t other others twin, scope.Alike other →
      other.Laid w.home → Locals.Alike locals others → init.Alike twin →
      w.Follows s s' t (checkLocal w.other w.reply other span name ascription others twin)
        fun got _ => got.type = own.type := by
  have lookups : ∀ others, Locals.Alike locals others →
      (others.lookup name).isSome = (locals.lookup name).isSome := by
    intro others same
    simpa using congrArg Option.isSome (same.lookup name)
  have fresh : ∀ r, w.Moves n s r →
      (do if (locals.lookup name).isSome then Check.fail span (.duplicateLocal name)
          return ⟨← Check.freshLocal, init.type⟩ : Check σ Local) r = .ok own s' →
      w.Moves n s s' ∧ r.Leads s' ∧ own.type = init.type ∧ ∀ t others twin, Locals.Alike locals others →
        init.Alike twin → w.Follows r s' t
          (do if (others.lookup name).isSome then Check.fail span (.duplicateLocal name)
              return ⟨← Check.freshLocal, twin.type⟩ : Check σ Local) fun got _ => got.type = own.type := by
    intro r moves run
    simp only [Check.guard_ok, Check.bind_ok, Check.freshLocal_ok, Check.pure_ok] at run
    obtain ⟨new, _, _, ⟨rfl, rfl⟩, rfl, rfl⟩ := run
    have number : w.Moves n r { r with nextLocal := r.nextLocal + 1 } :=
      .of_fields moves.consistent rfl rfl rfl rfl (Nat.le_succ _)
    refine ⟨moves.trans number, number.leads, rfl, ?_⟩
    intro t others twin same like
    simp only [lookups others same, new]
    exact .fresh fun u _ => .pure like.type
  unfold checkLocal at run
  cases ascription with
  | none =>
    obtain ⟨moves, -, type, follows⟩ := fresh s (.refl ready) run
    refine ⟨moves, type, ?_⟩
    intro t other others twin _ _ same like
    exact follows t others twin same like
  | some ref =>
    simp only [Check.bind_ok] at run
    obtain ⟨declared, between, resolved, run⟩ := run
    obtain ⟨first, one⟩ := resolveType_follows moving (laid.locals locals) ready resolved
    rw [Check.guardTexts_ok] at run
    obtain ⟨moves, onward, type, follows⟩ := fresh between first run.2
    refine ⟨moves, type, ?_⟩
    intro t other others twin alike laidToo same like
    unfold checkLocal
    refine .bind (one t _ (alike.inside same) (laidToo.locals others)) first.leads onward ?_
    rintro _ v - rfl
    simp only [like.type]
    rw [if_neg run.1]
    exact like.type ▸ follows v others twin same like

/-- The check of an expression is followed. -/
def ExprFollows (w : Window σ) (scope : Scope) (callee : Bool) (expr : Expr) : Prop :=
  ∀ {n} {s s' : Checking σ} {typed : TypedExpr}, w.Moving n → scope.Laid w.home → s.Consistent w.env n →
    checkExpr w.env (checkMember w.env n) scope callee expr s = .ok typed s' →
    w.Moves n s s' ∧ s'.Knows typed ∧ ∀ t other, scope.Alike other → other.Laid w.home →
      w.Follows s s' t (checkExpr w.other w.reply other callee expr)
        fun got t' => typed.Alike got ∧ t'.Knows got

def BodyFollows (w : Window σ) (scope : Scope) (locals : List (String × Local)) (last : Ty)
    (body : List Stmt) : Prop :=
  ∀ {n} {s s' : Checking σ} {typed : List TypedStmt} {type : Ty}, w.Moving n → scope.Laid w.home →
    s.Consistent w.env n →
    checkBody w.env (checkMember w.env n) scope locals last body s = .ok (typed, type) s' →
    w.Moves n s s' ∧ ∀ t other others, scope.Alike other → other.Laid w.home →
      Locals.Alike locals others →
      w.Follows s s' t (checkBody w.other w.reply other others last body) fun got _ => got.2 = type

def ArgumentsFollow (w : Window σ) (scope : Scope) (what : String) (params : List Param)
    (args : List Expr) : Prop :=
  ∀ {n} {s s' : Checking σ} {typed : List TypedExpr}, w.Moving n → scope.Laid w.home →
    s.Consistent w.env n →
    checkArguments w.env (checkMember w.env n) scope what params args s = .ok typed s' →
    w.Moves n s s' ∧ ∀ t other what', scope.Alike other → other.Laid w.home →
      w.Follows s s' t (checkArguments w.other w.reply other what' params args) fun _ _ => True

def ValuesFollow (w : Window σ) (scope : Scope) (args : List Expr) : Prop :=
  ∀ {n} {s s' : Checking σ} {typed : List TypedExpr}, w.Moving n → scope.Laid w.home →
    s.Consistent w.env n → checkValues w.env (checkMember w.env n) scope args s = .ok typed s' →
    w.Moves n s s' ∧ ∀ t other, scope.Alike other → other.Laid w.home →
      w.Follows s s' t (checkValues w.other w.reply other args) fun _ _ => True

/-- An operand: an expression that must be a value, in front of what uses it. -/
theorem ExprFollows.operand (follows : ExprFollows w scope false expr) (moving : w.Moving n)
    (laid : scope.Laid w.home) (ready : s.Consistent w.env n)
    (checked : checkExpr w.env (checkMember w.env n) scope false expr s = .ok raw between)
    (value : asValue raw between = .ok typed s') :
    w.Moves n s s' ∧ s'.Knows typed ∧ ∀ {α : Type} {t u : Checking σ} {other : Scope}
      {f : TypedExpr → Check σ α} {post : α → Checking σ → Prop}, scope.Alike other → other.Laid w.home →
      s'.Leads u → (∀ got v, typed.Alike got → v.Knows got → w.Follows s' u v (f got) post) →
      w.Follows s u t (checkExpr w.other w.reply other false expr >>= fun raw => asValue raw >>= f) post := by
  obtain ⟨rfl, rfl, isValue⟩ := asValue_ok value
  obtain ⟨moves, known, one⟩ := follows moving laid ready checked
  refine ⟨moves, known, ?_⟩
  intro α t u other f post alike laidToo onward further
  refine .bind (one t other alike laidToo) moves.leads onward ?_
  rintro got v - ⟨same, knownToo⟩
  exact asValue_follows isValue same (further got v same knownToo)

theorem exprFollows_literal {typed : TypedExpr} (nameless : typed.calleeMember? = none)
    (one : ∀ scope, checkExpr w.env (checkMember w.env n) scope callee expr = pure typed)
    (two : ∀ scope, checkExpr w.other w.reply scope callee expr = pure typed)
    (ready : s.Consistent w.env n)
    (run : checkExpr w.env (checkMember w.env n) scope callee expr s = .ok found s') :
    w.Moves n s s' ∧ s'.Knows found ∧ ∀ t other, scope.Alike other → other.Laid w.home →
      w.Follows s s' t (checkExpr w.other w.reply other callee expr)
        fun got t' => found.Alike got ∧ t'.Knows got := by
  rw [one] at run
  obtain ⟨rfl, rfl⟩ := Check.pure_ok.mp run
  refine ⟨.refl ready, knows_of_none nameless, fun t other _ _ => ?_⟩
  rw [two]
  exact .pure ⟨.refl _, knows_of_none nameless⟩

theorem exprFollows_this : ExprFollows w scope callee (.this span) := by
  intro n s s' typed moving laid ready run
  rw [checkExpr] at run
  simp only [Check.bind_ok, Check.symbols_ok] at run
  obtain ⟨_, _, ⟨rfl, rfl⟩, run⟩ := run
  cases inside : scope.innermostClass? s.symbols with
  | none => simp [inside, Check.fail_ok] at run
  | some cls =>
    simp only [inside, Check.pure_ok] at run
    obtain ⟨rfl, rfl⟩ := run
    refine ⟨.refl ready, knows_of_none rfl, fun t other alike _ => ?_⟩
    rw [checkExpr]
    refine .given fun _ _ leads _ trails => .symbols ?_
    rw [alike.innermostClass? (trails.sees leads), inside]
    exact .pure ⟨.refl _, knows_of_none rfl⟩

theorem exprFollows_call (function : ExprFollows w scope true head) (values : ValuesFollow w scope args)
    (arguments : ∀ member : MemberSymbol,
      ArgumentsFollow w scope ("def " ++ member.name) member.params args) :
    ExprFollows w scope callee (.call span head args) := by
  intro n s s' typed moving laid ready run
  rw [checkExpr] at run
  simp only [Check.bind_ok] at run
  obtain ⟨named, between, checked, what, _, applies, run⟩ := run
  obtain ⟨first, known, one⟩ := function moving laid ready checked
  obtain ⟨rfl, meaning⟩ := applied_ok applies
  have applied := applied_follows first.consistent known applies
  cases what with
  | builtinShow =>
    simp only [Check.guard_ok, Check.bind_ok, Check.pure_ok] at run
    obtain ⟨single, operands, after, shown, rfl, rfl⟩ := run
    obtain ⟨second, more⟩ := values moving laid first.consistent shown
    refine ⟨first.trans second, knows_of_none rfl, fun t other alike laidToo => ?_⟩
    rw [checkExpr]
    refine .bind (one t other alike laidToo) first.leads second.leads ?_
    rintro got v - ⟨same, knownToo⟩
    refine .bind (applied v got same knownToo) (.refl _) second.leads ?_
    intro what u _ like
    cases what with
    | function key member => exact like.elim
    | builtinShow =>
      dsimp only
      rw [if_neg single]
      refine .bind (more u other alike laidToo) second.leads (.refl _) ?_
      exact fun _ _ _ _ => .pure ⟨⟨rfl, rfl, rfl, by simp⟩, knows_of_none rfl⟩
  | function key member =>
    obtain ⟨names, listed, callable⟩ := meaning
    simp only [Check.bind_ok, Check.symbols_ok, Check.pure_ok] at run
    obtain ⟨_, _, counted, operands, after, fitting, _, _, ⟨rfl, rfl⟩, rfl, rfl⟩ := run
    obtain ⟨rfl, -⟩ := checkCount_ok counted
    obtain ⟨second, more⟩ := arguments member moving laid first.consistent fitting
    refine ⟨first.trans second, knows_of_none rfl, fun t other alike laidToo => ?_⟩
    rw [checkExpr]
    refine .bind (one t other alike laidToo) first.leads second.leads ?_
    rintro got v - ⟨same, knownToo⟩
    refine .bind (applied v got same knownToo) (.refl _) second.leads ?_
    intro what u steps like
    cases what with
    | builtinShow => exact like.elim
    | function other' twin =>
      obtain ⟨rfl, -, params⟩ := like
      dsimp only
      rw [params]
      refine .bind (checkCount_follows counted _) (.refl _) second.leads ?_
      intro _ r further _
      refine .bind (more r other _ alike laidToo) second.leads (.refl _) ?_
      intro typedArgs q last _
      refine .given fun _ _ leads _ trails => .symbols ?_
      have knownThere : q.Typed other' := last.typed (further.typed (steps.typed
        (knownToo other' (same.calleeMember?.trans names))))
      have types := (params_follow trails second.consistent leads
        (second.advances.typed (known other' names)) knownThere).2
      exact .pure ⟨⟨rfl, types, rfl, by simp⟩, knows_of_none rfl⟩

theorem exprFollows_new (named : ExprFollows w scope false target)
    (arguments : ∀ cls (S : Symbols), ArgumentsFollow w scope
      ("class " ++ (S.get cls).name) (S.get cls).params args) :
    ExprFollows w scope callee (.new span target args) := by
  intro n s s' typed moving laid ready run
  rw [checkExpr] at run
  simp only [Check.bind_ok, Check.symbols_ok, Check.pure_ok] at run
  obtain ⟨path, between, checked, cls, _, chosen, _, _, ⟨rfl, rfl⟩, _, _, counted, operands, after,
    fitting, rfl, rfl⟩ := run
  obtain ⟨first, -, one⟩ := named moving laid ready checked
  obtain ⟨rfl, space, isClass⟩ := targetClass_ok chosen
  obtain ⟨rfl, -⟩ := checkCount_ok counted
  obtain ⟨second, more⟩ := arguments cls _ moving laid first.consistent fitting
  refine ⟨first.trans second, knows_of_none rfl, fun t other alike laidToo => ?_⟩
  rw [checkExpr]
  refine .bind (one t other alike laidToo) first.leads second.leads ?_
  rintro got v - ⟨same, -⟩
  refine .bind (targetClass_follows same chosen) (.refl _) second.leads ?_
  rintro cls u - rfl
  refine .given fun _ _ leads _ trails => .symbols ?_
  have params := (trails.params cls).trans ((second.leads.trans leads).still.params cls)
  dsimp only
  rw [params]
  refine .bind (checkCount_follows counted _) (.refl _) second.leads ?_
  intro _ r _ _
  refine .bind (more r other _ alike laidToo) second.leads (.refl _) ?_
  exact fun _ _ _ _ => .pure ⟨⟨rfl, rfl, rfl, by simp⟩, knows_of_none rfl⟩

theorem exprFollows_binary (first : ExprFollows w scope false left)
    (second : ExprFollows w scope false right) :
    ExprFollows w scope callee (.binary span op left right) := by
  intro n s s' typed moving laid ready run
  rw [checkExpr] at run
  simp only [Check.bind_ok] at run
  obtain ⟨_, _, one, _, _, oneValue, _, _, two, _, _, twoValue, run⟩ := run
  obtain ⟨moves, -, ahead⟩ := first.operand moving laid ready one oneValue
  obtain ⟨more, -, behind⟩ := second.operand moving laid moves.consistent two twoValue
  obtain ⟨last, nameless, follows⟩ := checkBinary_follows moving laid more.consistent run
  refine ⟨(moves.trans more).trans last, knows_of_none nameless, fun t other alike laidToo => ?_⟩
  rw [checkExpr]
  refine ahead alike laidToo (more.leads.trans last.leads) fun gotLeft v likeLeft _ => ?_
  refine behind alike laidToo last.leads fun gotRight u likeRight _ => ?_
  refine (follows u other gotLeft gotRight alike laidToo likeLeft likeRight).imp ?_
  exact fun got r same => ⟨same, knows_of_none (same.calleeMember?.trans nameless)⟩

theorem exprFollows_unary (arg : ExprFollows w scope false operand) :
    ExprFollows w scope callee (.unary span op operand) := by
  intro n s s' typed moving laid ready run
  rw [checkExpr] at run
  simp only [Check.bind_ok, Check.guardText_ok, Check.pure_ok] at run
  obtain ⟨_, _, one, _, _, value, word, rfl, rfl⟩ := run
  obtain ⟨moves, -, ahead⟩ := arg.operand moving laid ready one value
  refine ⟨moves, knows_of_none rfl, fun t other alike laidToo => ?_⟩
  rw [checkExpr]
  refine ahead alike laidToo (.refl _) fun got v like _ => ?_
  simp only [like.type]
  rw [if_neg word]
  exact .pure ⟨⟨rfl, rfl, rfl, by simp⟩, knows_of_none rfl⟩

theorem exprFollows_cond (condition : ExprFollows w scope false test)
    (first : ExprFollows w scope false left)
    (second : ∀ right, branch = some right → ExprFollows w scope false right) :
    ExprFollows w scope callee (.cond span test left branch) := by
  intro n s s' typed moving laid ready run
  rw [checkExpr] at run
  simp only [Check.bind_ok, Check.guardText_ok] at run
  obtain ⟨_, _, tested, _, _, testValue, word, _, _, one, _, _, oneValue, run⟩ := run
  obtain ⟨moves, -, ahead⟩ := condition.operand moving laid ready tested testValue
  obtain ⟨more, -, behind⟩ := first.operand moving laid moves.consistent one oneValue
  cases branch with
  | none =>
    obtain ⟨rfl, rfl⟩ := Check.pure_ok.mp run
    refine ⟨moves.trans more, knows_of_none rfl, fun t other alike laidToo => ?_⟩
    rw [checkExpr]
    refine ahead alike laidToo more.leads fun gotTest v likeTest _ => ?_
    simp only [likeTest.type]
    rw [if_neg word]
    refine behind alike laidToo (.refl _) fun gotLeft u _ _ => ?_
    exact .pure ⟨⟨rfl, rfl, rfl, by simp⟩, knows_of_none rfl⟩
  | some right =>
    simp only [Check.bind_ok, Check.guardTexts_ok, Check.pure_ok] at run
    obtain ⟨_, _, two, _, _, twoValue, same, rfl, rfl⟩ := run
    have follows : ExprFollows w scope false right := second right rfl
    obtain ⟨last, -, beyond⟩ := follows.operand moving laid more.consistent two twoValue
    refine ⟨(moves.trans more).trans last, knows_of_none rfl, fun t other alike laidToo => ?_⟩
    rw [checkExpr]
    refine ahead alike laidToo (more.leads.trans last.leads) fun gotTest v likeTest _ => ?_
    simp only [likeTest.type]
    rw [if_neg word]
    refine behind alike laidToo last.leads fun gotLeft u likeLeft _ => ?_
    refine beyond alike laidToo (.refl _) fun gotRight r likeRight _ => ?_
    simp only [likeLeft.type, likeRight.type]
    rw [if_neg same]
    exact .pure ⟨⟨rfl, rfl, rfl, by simp⟩, knows_of_none rfl⟩

theorem exprFollows_block (statements : BodyFollows w scope [] .unit body) :
    ExprFollows w scope callee (.block span body) := by
  intro n s s' typed moving laid ready run
  rw [checkExpr] at run
  simp only [Check.bind_ok, Check.pure_ok] at run
  obtain ⟨⟨typedBody, type⟩, _, checked, rfl, rfl⟩ := run
  obtain ⟨moves, follows⟩ := statements moving laid ready checked
  refine ⟨moves, knows_of_none rfl, fun t other alike laidToo => ?_⟩
  rw [checkExpr]
  refine .bind (follows t other [] alike laidToo (.refl _)) moves.leads (.refl _) ?_
  rintro ⟨gotBody, gotType⟩ v - rfl
  exact .pure ⟨⟨rfl, rfl, rfl, by simp⟩, knows_of_none rfl⟩

theorem argumentsFollow_cons (arg : ExprFollows w scope false first)
    (others : ArgumentsFollow w scope what params.tail rest) :
    ArgumentsFollow w scope what params (first :: rest) := by
  intro n s s' typed moving laid ready run
  rw [checkArguments] at run
  cases params with
  | nil =>
    simp only [List.head?_nil, Check.bind_ok, Check.pure_ok] at run
    obtain ⟨_, _, one, own, _, value, more, _, checked, rfl, rfl⟩ := run
    obtain ⟨moves, -, ahead⟩ := arg.operand moving laid ready one value
    obtain ⟨last, behind⟩ := others moving laid moves.consistent checked
    refine ⟨moves.trans last, fun t other what' alike laidToo => ?_⟩
    rw [checkArguments]
    refine ahead alike laidToo last.leads fun got v _ _ => ?_
    refine .bind (behind v other what' alike laidToo) last.leads (.refl _) ?_
    exact fun _ _ _ _ => .pure trivial
  | cons param params =>
    simp only [List.head?_cons, Check.bind_ok, Check.pure_ok] at run
    obtain ⟨_, _, one, own, _, value, _, _, matched, more, _, checked, rfl, rfl⟩ := run
    obtain ⟨moves, -, ahead⟩ := arg.operand moving laid ready one value
    obtain ⟨rfl, type⟩ := checkArgument_ok matched
    obtain ⟨last, behind⟩ := others moving laid moves.consistent checked
    refine ⟨moves.trans last, fun t other what' alike laidToo => ?_⟩
    rw [checkArguments]
    refine ahead alike laidToo last.leads fun got v like _ => ?_
    have fits : (checkArgument what' param got : Check σ Unit) = pure () := by
      unfold checkArgument
      rw [like.type, if_neg (not_not.mpr type)]
    simp only [List.head?_cons, fits, pure_bind]
    refine .bind (behind v other what' alike laidToo) last.leads (.refl _) ?_
    exact fun _ _ _ _ => .pure trivial

theorem valuesFollow_cons (arg : ExprFollows w scope false first) (others : ValuesFollow w scope rest) :
    ValuesFollow w scope (first :: rest) := by
  intro n s s' typed moving laid ready run
  rw [checkValues] at run
  simp only [Check.bind_ok, Check.pure_ok] at run
  obtain ⟨_, _, one, own, _, value, more, _, checked, rfl, rfl⟩ := run
  obtain ⟨moves, -, ahead⟩ := arg.operand moving laid ready one value
  obtain ⟨last, behind⟩ := others moving laid moves.consistent checked
  refine ⟨moves.trans last, fun t other alike laidToo => ?_⟩
  rw [checkValues]
  refine ahead alike laidToo last.leads fun got v _ _ => ?_
  refine .bind (behind v other alike laidToo) last.leads (.refl _) ?_
  exact fun _ _ _ _ => .pure trivial

theorem bodyFollows_val (value : ExprFollows w ({ locals } :: scope) false init)
    (others : ∀ own, BodyFollows w scope ((name, own) :: locals) .unit rest) :
    BodyFollows w scope locals last (.val span name ascription init :: rest) := by
  intro n s s' typed type moving laid ready run
  rw [checkBody] at run
  simp only [Check.bind_ok, Check.pure_ok, Prod.mk.injEq] at run
  obtain ⟨_, _, one, typedInit, _, isValue, own, _, declared, ⟨typedRest, _⟩, _, checked,
    ⟨rfl, rfl⟩, rfl⟩ := run
  obtain ⟨moves, -, ahead⟩ := value.operand moving (laid.locals locals) ready one isValue
  obtain ⟨more, -, stored⟩ := checkLocal_follows moving laid moves.consistent declared
  obtain ⟨last, behind⟩ := others own moving laid more.consistent checked
  refine ⟨(moves.trans more).trans last, fun t other twins alike laidToo same => ?_⟩
  rw [checkBody]
  refine ahead (alike.inside same) (laidToo.locals twins) (more.leads.trans last.leads)
    fun got v like _ => ?_
  refine .bind (stored v other twins got alike laidToo same like) more.leads last.leads ?_
  intro gotOwn u _ ofType
  refine .bind (behind u other _ alike laidToo (.cons ⟨rfl, ofType⟩ same)) last.leads (.refl _) ?_
  rintro ⟨gotRest, gotType⟩ r - rfl
  exact .pure rfl

theorem bodyFollows_expr (value : ExprFollows w ({ locals } :: scope) false expr)
    (others : ∀ typed : TypedExpr, BodyFollows w scope locals typed.type rest) :
    BodyFollows w scope locals last (.expr expr :: rest) := by
  intro n s s' typed type moving laid ready run
  rw [checkBody] at run
  simp only [Check.bind_ok, Check.pure_ok, Prod.mk.injEq] at run
  obtain ⟨_, _, one, own, _, isValue, ⟨typedRest, _⟩, _, checked, ⟨rfl, rfl⟩, rfl⟩ := run
  obtain ⟨moves, -, ahead⟩ := value.operand moving (laid.locals locals) ready one isValue
  obtain ⟨last, behind⟩ := others own moving laid moves.consistent checked
  refine ⟨moves.trans last, fun t other twins alike laidToo same => ?_⟩
  rw [checkBody]
  refine ahead (alike.inside same) (laidToo.locals twins) last.leads fun got v like _ => ?_
  rw [like.type]
  refine .bind (behind v other twins alike laidToo same) last.leads (.refl _) ?_
  rintro ⟨gotRest, gotType⟩ r - rfl
  exact .pure rfl

/-- The parts of an expression are followed one after the other, each in the scope of its own place. -/
theorem check_follows (w : Window σ) :
    (∀ scope callee expr, ExprFollows w scope callee expr) ∧
    (∀ scope locals last body, BodyFollows w scope locals last body) ∧
    (∀ scope what params args, ArgumentsFollow w scope what params args) ∧
    ∀ scope args, ValuesFollow w scope args := by
  apply checkExpr.mutual_induct
  case case1 | case2 | case3 =>
    intros
    intro n s s' typed _ _ ready run
    exact exprFollows_literal rfl (fun _ => by rw [checkExpr]) (fun _ => by rw [checkExpr]) ready run
  case case4 => exact fun scope callee span => exprFollows_this
  case case5 =>
    intro scope callee span name n s s' typed moving laid ready run
    rw [checkExpr_name] at run
    simp only [checkExpr_name]
    exact resolveName_follows moving laid ready run
  case case6 =>
    intro scope callee span object member target n s s' typed moving laid ready run
    rw [checkExpr] at run
    simp only [Check.bind_ok] at run
    obtain ⟨own, between, checked, run⟩ := run
    obtain ⟨first, -, one⟩ := target moving laid ready checked
    obtain ⟨second, known, more⟩ := select_follows moving first.consistent run
    refine ⟨first.trans second, known, fun t other alike laidToo => ?_⟩
    rw [checkExpr]
    refine .bind (one t other alike laidToo) first.leads second.leads ?_
    rintro got v - ⟨same, -⟩
    exact more v got same
  case case7 =>
    exact fun _ _ _ _ _ function values arguments => exprFollows_call function values arguments
  case case8 => exact fun _ _ _ _ _ named arguments => exprFollows_new named arguments
  case case9 => exact fun _ _ _ _ _ _ first second => exprFollows_binary first second
  case case10 => exact fun _ _ _ _ _ arg => exprFollows_unary arg
  case case11 =>
    intro scope callee span test left branch condition first second
    refine exprFollows_cond condition first ?_
    rintro right rfl
    exact second
  case case12 => exact fun _ _ _ _ statements => exprFollows_block statements
  case case13 =>
    intro scope what params n s s' typed _ _ ready run
    rw [checkArguments] at run
    obtain ⟨rfl, rfl⟩ := Check.pure_ok.mp run
    refine ⟨.refl ready, fun t other what' _ _ => ?_⟩
    rw [checkArguments]
    exact .pure trivial
  case case14 => exact fun _ _ _ _ _ arg others => argumentsFollow_cons arg others
  case case15 =>
    intro scope n s s' typed _ _ ready run
    rw [checkValues] at run
    obtain ⟨rfl, rfl⟩ := Check.pure_ok.mp run
    refine ⟨.refl ready, fun t other _ _ => ?_⟩
    rw [checkValues]
    exact .pure trivial
  case case16 => exact fun _ _ _ arg others => valuesFollow_cons arg others
  case case17 =>
    intro scope locals last n s s' typed type _ _ ready run
    rw [checkBody] at run
    simp only [Check.pure_ok, Prod.mk.injEq] at run
    obtain ⟨⟨rfl, rfl⟩, rfl⟩ := run
    refine ⟨.refl ready, fun t other others _ _ _ => ?_⟩
    rw [checkBody]
    exact .pure rfl
  case case18 => exact fun _ _ _ _ _ _ _ _ value others => bodyFollows_val value others
  case case19 => exact fun _ _ _ _ _ value others => bodyFollows_expr value others

theorem checkValue_follows (moving : w.Moving n) (laid : scope.Laid w.home) (ready : s.Consistent w.env n)
    (run : checkValue w.env (checkMember w.env n) scope expr s = .ok typed s') :
    w.Moves n s s' ∧ ∀ t other, scope.Alike other → other.Laid w.home →
      w.Follows s s' t (checkValue w.other w.reply other expr) fun got _ => typed.Alike got := by
  simp only [checkValue, Check.bind_ok] at run
  obtain ⟨raw, between, checked, value⟩ := run
  obtain ⟨rfl, rfl, isValue⟩ := asValue_ok value
  obtain ⟨moves, -, follows⟩ := (check_follows w).1 _ _ _ moving laid ready checked
  refine ⟨moves, fun t other alike laidToo => ?_⟩
  unfold checkValue
  refine .bind (follows t other alike laidToo) moves.leads (.refl _) ?_
  rintro got v - ⟨same, -⟩
  have value : (asValue got : Check σ TypedExpr) = pure got := by
    unfold asValue
    rw [same.type, if_pos isValue]
  rw [value]
  exact .pure same

end ScriptShell.Typing
